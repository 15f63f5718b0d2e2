/-
# What a node's definition determines

Units, periods, formula trees and nodes as the Python values the encoder meets (`toPy`), and the
canonical definition of a node.

* `NodeFields.Equiv` relates nodes that differ only in their label, in the spelling of decimals and
  in the UTC offset of datetimes.
* `equiv_of_definition_eq`: nodes with one definition are equivalent.
-/
import EvidenceLab.Nodes

namespace CalcEngine

/-! ## The quotient on constructors -/

/-- Only `None` is written like `None`. -/
@[simp] theorem same_none {w : PyValue} : Same .none w ↔ w.core = .none := by rw [Same]

@[simp] theorem same_str {s : String} {w : PyValue} : Same (.str s) w ↔ w.core = .str s := by
  rw [Same]

@[simp] theorem same_int {i : ℤ} {w : PyValue} : Same (.int i) w ↔ w.core = .int i := by rw [Same]

/-- An enumeration member is written as its value. -/
@[simp] theorem same_enum {v w : PyValue} : Same (.enum v) w ↔ Same v w := by rw [Same]

/-- Decimals of one value are written alike, whatever their exponents. -/
@[simp] theorem same_decimal {d d' : Decimal} :
    Same (.decimal d) (.decimal d') ↔ d.value = d'.value := by
  rw [Same]
  simp [PyValue.core]

/-- Times are written alike at one instant, whatever their zones. -/
@[simp] theorem same_datetime {t t' : AwareDatetime} :
    Same (.datetime t) (.datetime t') ↔ t.instant = t'.instant := by
  rw [Same]
  simp [PyValue.core]

/-- Dataclasses are written alike where the class and the fields are. -/
@[simp] theorem same_dataclass {c c' : EngineClass} {fs fs' : List PyValue} :
    Same (.dataclass c fs) (.dataclass c' fs') ↔ c' = c ∧ SameItems fs fs' := by
  rw [Same]
  simp [PyValue.core]

/-- Lists and tuples are written alike. -/
@[simp] theorem same_seq {b b' : Bool} {xs ys : List PyValue} :
    Same (.seq b xs) (.seq b' ys) ↔ SameItems xs ys := by
  rw [Same]
  simp [PyValue.core]

@[simp] theorem sameItems_nil : SameItems [] [] ↔ True := by simp [SameItems]

@[simp] theorem sameItems_cons {v w : PyValue} {vs ws : List PyValue} :
    SameItems (v :: vs) (w :: ws) ↔ Same v w ∧ SameItems vs ws := by rw [SameItems]

/-- Sequences are written alike item by item. -/
theorem sameItems_iff {vs ws : List PyValue} : SameItems vs ws ↔ List.Forall₂ Same vs ws := by
  induction vs generalizing ws with
  | nil => cases ws <;> simp [SameItems]
  | cons v vs ih =>
      cases ws with
      | nil => simp [SameItems]
      | cons w ws => rw [sameItems_cons, ih, List.forall₂_cons]

attribute [simp] PyValue.core

@[simp] theorem same_optStr_iff {o o' : Option String} :
    Same (PyValue.optStr o) (PyValue.optStr o') ↔ o = o' := same_optStr

/-- A list of strings. -/
def strs (l : List String) : PyValue := .tuple (l.map PyValue.str)

/-- Lists of texts are written alike only if they are equal. -/
@[simp] theorem same_strs {l l' : List String} : Same (strs l) (strs l') ↔ l = l' := by
  rw [strs, strs, same_seq, sameItems_iff, List.forall₂_map_left_iff, List.forall₂_map_right_iff]
  simp only [same_str, PyValue.core, PyValue.str.injEq]
  rw [List.forall₂_iff_get]
  constructor
  · rintro ⟨hlen, h⟩
    apply List.ext_get hlen
    intro i h1 h2
    exact (h i h1 h2).symm
  · rintro rfl
    exact ⟨rfl, fun _ _ _ => rfl⟩

/-- A decimal or `None`. -/
def optDecimal : Option Decimal → PyValue
  | none => .none
  | some d => .decimal d

@[simp] theorem same_optDecimal {q q' : Option Decimal} :
    Same (optDecimal q) (optDecimal q') ↔ q.map Decimal.value = q'.map Decimal.value := by
  cases q <;> cases q' <;> simp [optDecimal, Same]

/-! ## Units, periods and formula trees -/

theorem UnitKind.text_injective : Function.Injective UnitKind.text := by
  intro k k' h
  cases k <;> cases k' <;> first | rfl | exact absurd h (by decide)

theorem PeriodKind.text_injective : Function.Injective PeriodKind.text := by
  intro k k' h
  cases k <;> cases k' <;> first | rfl | exact absurd h (by decide)

theorem Operator.text_injective : Function.Injective Operator.text := by
  intro k k' h
  cases k <;> cases k' <;> first | rfl | exact absurd h (by decide)

theorem Operator.symbol_injective : Function.Injective Operator.symbol := by
  intro k k' h
  cases k <;> cases k' <;> first | rfl | exact absurd h (by decide)

theorem Sign.symbol_injective : Function.Injective Sign.symbol := by
  intro k k' h
  cases k <;> cases k' <;> first | rfl | exact absurd h (by decide)

theorem AggregationOp.text_injective : Function.Injective AggregationOp.text := by
  intro k k' h
  cases k <;> cases k' <;> first | rfl | exact absurd h (by decide)

theorem CheckOp.text_injective : Function.Injective CheckOp.text := by
  intro k k' h
  cases k <;> cases k' <;> first | rfl | exact absurd h (by decide)

def PeriodKind.optPy : Option PeriodKind → PyValue
  | none => .none
  | some p => .enum (.str p.text)

@[simp] theorem same_optPy {p p' : Option PeriodKind} :
    Same (PeriodKind.optPy p) (PeriodKind.optPy p') ↔ p' = p := by
  cases p <;> cases p' <;> simp [PeriodKind.optPy, PeriodKind.text_injective.eq_iff]

def TypedUnit.toPy (u : TypedUnit) : PyValue :=
  .dataclass .unit [.enum (.str u.kind.text), PyValue.optStr u.currency,
    PeriodKind.optPy u.perPeriod]

/-- Equal encodings come from equal units. -/
@[simp] theorem same_unit {u u' : TypedUnit} : Same u.toPy u'.toPy ↔ u = u' := by
  obtain ⟨k, c, p, h⟩ := u
  obtain ⟨k', c', p', h'⟩ := u'
  simp only [TypedUnit.toPy, same_dataclass, sameItems_cons, same_enum, same_str, PyValue.core,
    PyValue.str.injEq, UnitKind.text_injective.eq_iff, same_optStr_iff, same_optPy, sameItems_nil,
    and_true, true_and, TypedUnit.mk.injEq]
  constructor
  · rintro ⟨rfl, rfl, rfl⟩
    exact ⟨rfl, rfl, rfl⟩
  · rintro ⟨rfl, rfl, rfl⟩
    exact ⟨rfl, rfl, rfl⟩

def FiscalPeriod.toPy : FiscalPeriod → PyValue
  | .quarter y q _ _ => .dataclass .fiscalQuarter [.int y, .int q]
  | .year y _ => .dataclass .fiscalYear [.int y]

/-- Equal encodings come from equal periods. -/
@[simp] theorem same_period {p p' : FiscalPeriod} : Same p.toPy p'.toPy ↔ p = p' := by
  cases p <;> cases p' <;> simp [FiscalPeriod.toPy, eq_comm]

def FormulaAST.toPy : FormulaAST → PyValue
  | .reference nodeId => .dataclass .reference [.str nodeId]
  | .literal value => .dataclass .literal [.decimal value]
  | .unary op e => .dataclass .unary [.str op.symbol, e.toPy]
  | .binary op l r => .dataclass .binary [.str op.symbol, l.toPy, r.toPy]

/-- **Formulas are written alike if and only if they are equivalent**: equal up to the spelling of
their literals. -/
theorem same_ast : ∀ a a' : FormulaAST, Same a.toPy a'.toPy ↔ a.Equiv a'
  | .reference i, a' => by cases a' <;> simp [FormulaAST.toPy, FormulaAST.Equiv, eq_comm]
  | .literal v, a' => by cases a' <;> simp [FormulaAST.toPy, FormulaAST.Equiv]
  | .unary s e, a' => by
      cases a' with
      | unary s' e' =>
          simp [FormulaAST.toPy, FormulaAST.Equiv, same_ast e e', Sign.symbol_injective.eq_iff,
            eq_comm]
      | _ => simp [FormulaAST.toPy, FormulaAST.Equiv]
  | .binary op l r, a' => by
      cases a' with
      | binary op' l' r' =>
          simp [FormulaAST.toPy, FormulaAST.Equiv, same_ast l l', same_ast r r',
            Operator.symbol_injective.eq_iff, eq_comm]
      | _ => simp [FormulaAST.toPy, FormulaAST.Equiv]

/-! ## Nodes -/

namespace NodeBody

/-- The class of a node. -/
def cls : NodeBody → EngineClass
  | .sourceFact .. => .sourceFactNode
  | .analystAssumption .. => .analystAssumptionNode
  | .forecastModelOutput .. => .forecastModelOutputNode
  | .scenarioOverride .. => .scenarioOverrideNode
  | .operationalDriver .. => .operationalDriverNode
  | .formula .. => .formulaNode
  | .expressionFormula .. => .expressionFormulaNode
  | .aggregation .. => .aggregationNode
  | .validationCheck .. => .validationCheckNode
  | .reportedFinancialOutput .. => .reportedFinancialOutputNode

/-- The fields after those every node has. -/
def fieldsPy : NodeBody → List PyValue
  | .sourceFact value asOf sourceSpanId factId =>
    [.decimal value, .datetime asOf, .str sourceSpanId, PyValue.optStr factId]
  | .analystAssumption value asOf assumptionId =>
    [.decimal value, .datetime asOf, .str assumptionId]
  | .forecastModelOutput value asOf forecastRunId datasetCutoff datasetVersion =>
    [.decimal value, .datetime asOf, .str forecastRunId, .datetime datasetCutoff,
      .str datasetVersion]
  | .scenarioOverride value asOf target scenarioId assumptionId =>
    [.decimal value, .datetime asOf, .str target, .str scenarioId, .str assumptionId]
  | .operationalDriver seed => [.str seed]
  | .formula operator operands formulaVersion =>
    [.enum (.str operator.text), strs operands, .str formulaVersion]
  | .expressionFormula ast formulaVersion grammar =>
    [ast.toPy, .str formulaVersion, .str grammar]
  | .aggregation operator operands => [.enum (.str operator.text), strs operands]
  | .validationCheck check operands tolerance =>
    [.enum (.str check.text), strs operands, optDecimal tolerance]
  | .reportedFinancialOutput source metricId quantum =>
    [.str source, .str metricId, optDecimal quantum]

/-- Bodies that differ only in the spelling of decimals and the offset of datetimes. -/
def Equiv : NodeBody → NodeBody → Prop
  | .sourceFact v t s f, .sourceFact v' t' s' f' =>
    v.value = v'.value ∧ t.instant = t'.instant ∧ s = s' ∧ f = f'
  | .analystAssumption v t a, .analystAssumption v' t' a' =>
    v.value = v'.value ∧ t.instant = t'.instant ∧ a = a'
  | .forecastModelOutput v t r c d, .forecastModelOutput v' t' r' c' d' =>
    v.value = v'.value ∧ t.instant = t'.instant ∧ r = r' ∧ c.instant = c'.instant ∧ d = d'
  | .scenarioOverride v t g s a, .scenarioOverride v' t' g' s' a' =>
    v.value = v'.value ∧ t.instant = t'.instant ∧ g = g' ∧ s = s' ∧ a = a'
  | .operationalDriver s, .operationalDriver s' => s = s'
  | .formula o l v, .formula o' l' v' => o = o' ∧ l = l' ∧ v = v'
  | .expressionFormula a v g, .expressionFormula a' v' g' => a.Equiv a' ∧ v = v' ∧ g = g'
  | .aggregation o l, .aggregation o' l' => o = o' ∧ l = l'
  | .validationCheck c l t, .validationCheck c' l' t' =>
    c = c' ∧ l = l' ∧ t.map Decimal.value = t'.map Decimal.value
  | .reportedFinancialOutput s m q, .reportedFinancialOutput s' m' q' =>
    s = s' ∧ m = m' ∧ q.map Decimal.value = q'.map Decimal.value
  | _, _ => False

end NodeBody

/-- A node as the encoder sees it. -/
def NodeFields.toPy (n : NodeFields) : PyValue :=
  .dataclass n.body.cls ([.str n.nodeId, .str n.label, n.unit.toPy, n.period.toPy]
    ++ n.body.fieldsPy)

/-- Nodes that differ only in their label, in the spelling of decimals and the offset of
datetimes. -/
def NodeFields.Equiv (n n' : NodeFields) : Prop :=
  n.nodeId = n'.nodeId ∧ n.unit = n'.unit ∧ n.period = n'.period ∧ n.body.Equiv n'.body

/-- Bodies are written alike if and only if they are equivalent. -/
theorem same_fieldsPy {b b' : NodeBody} :
    b'.cls = b.cls ∧ SameItems b.fieldsPy b'.fieldsPy ↔ b.Equiv b' := by
  cases b <;> cases b' <;>
    simp [NodeBody.cls, NodeBody.fieldsPy, NodeBody.Equiv, same_ast,
      Operator.text_injective.eq_iff, AggregationOp.text_injective.eq_iff,
      CheckOp.text_injective.eq_iff, eq_comm]

/-- **Nodes are written alike if and only if** their labels are equal and they are equivalent. -/
theorem same_node {n n' : NodeFields} :
    Same n.toPy n'.toPy ↔ n.label = n'.label ∧ n.Equiv n' := by
  rw [NodeFields.Equiv, ← same_fieldsPy]
  simp only [NodeFields.toPy, List.cons_append, List.nil_append, same_dataclass, sameItems_cons,
    same_str, PyValue.core, PyValue.str.injEq, same_unit, same_period]
  constructor
  · rintro ⟨hc, hi, hl, hu, hp, hf⟩
    exact ⟨hl.symm, hi.symm, hu, hp, hc, hf⟩
  · rintro ⟨hl, hi, hu, hp, hc, hf⟩
    exact ⟨hc, hi.symm, hl.symm, hu, hp, hf⟩

/-! ## Everything is well formed -/

theorem formed_optStr (o : Option String) : Formed (PyValue.optStr o) := by
  cases o <;> trivial

theorem itemsFormed_iff {l : List PyValue} : ItemsFormed l ↔ ∀ v ∈ l, Formed v := by
  induction l with
  | nil => simp [ItemsFormed]
  | cons v l ih => rw [ItemsFormed, ih, List.forall_mem_cons]

theorem formed_strs (l : List String) : Formed (strs l) := by
  rw [strs, Formed, itemsFormed_iff]
  intro v hv
  obtain ⟨s, -, rfl⟩ := List.mem_map.mp hv
  trivial

theorem formed_optDecimal (q : Option Decimal) : Formed (optDecimal q) := by
  cases q <;> trivial

/-- A class without omittable fields takes any well-formed values, one for each field. -/
theorem formed_dataclass {c : EngineClass} {fs : List PyValue} (homit : c.omittableFields = [])
    (hlen : fs.length = c.plainFields.length) (hfs : ∀ v ∈ fs, Formed v) :
    Formed (.dataclass c fs) := by
  rw [Formed, EngineClass.fields, homit, List.map_nil, List.append_nil]
  generalize c.plainFields = names at hlen
  induction fs generalizing names with
  | nil =>
      obtain rfl : names = [] := List.length_eq_zero_iff.mp hlen.symm
      trivial
  | cons v fs ih =>
      cases names with
      | nil => simp at hlen
      | cons name names =>
          rw [List.map_cons, FieldsFormed]
          exact ⟨hfs v List.mem_cons_self, by simp,
            ih (fun w hw => hfs w (List.mem_cons_of_mem v hw)) names (by simpa using hlen)⟩

theorem formed_unit (u : TypedUnit) : Formed u.toPy := by
  apply formed_dataclass rfl rfl
  intro v hv
  simp only [List.mem_cons, List.not_mem_nil, or_false] at hv
  rcases hv with rfl | rfl | rfl
  · trivial
  · exact formed_optStr _
  · cases u.perPeriod <;> trivial

theorem formed_period (p : FiscalPeriod) : Formed p.toPy := by
  cases p with
  | quarter y q hy hq =>
      apply formed_dataclass rfl rfl
      intro v hv
      simp only [List.mem_cons, List.not_mem_nil, or_false] at hv
      rcases hv with rfl | rfl <;> trivial
  | year y hy =>
      apply formed_dataclass rfl rfl
      intro v hv
      rw [List.mem_singleton.mp hv]
      trivial

/-- A formula is well-formed as a Python value. -/
theorem formed_ast : ∀ a : FormulaAST, Formed a.toPy
  | .reference i => by
      apply formed_dataclass rfl rfl
      intro v hv
      rw [List.mem_singleton.mp hv]
      trivial
  | .literal d => by
      apply formed_dataclass rfl rfl
      intro v hv
      rw [List.mem_singleton.mp hv]
      trivial
  | .unary s e => by
      apply formed_dataclass rfl rfl
      intro v hv
      simp only [List.mem_cons, List.not_mem_nil, or_false] at hv
      rcases hv with rfl | rfl
      · trivial
      · exact formed_ast e
  | .binary op l r => by
      apply formed_dataclass rfl rfl
      intro v hv
      simp only [List.mem_cons, List.not_mem_nil, or_false] at hv
      rcases hv with rfl | rfl | rfl
      · trivial
      · exact formed_ast l
      · exact formed_ast r

theorem formed_fieldsPy (b : NodeBody) : ∀ v ∈ b.fieldsPy, Formed v := by
  intro v hv
  cases b <;> simp only [NodeBody.fieldsPy, List.mem_cons, List.not_mem_nil, or_false] at hv <;>
    rcases hv with rfl | rfl | rfl | rfl | rfl <;>
    first
      | trivial
      | exact formed_optStr _
      | exact formed_strs _
      | exact formed_optDecimal _
      | exact formed_ast _

/-- A node is well-formed as a Python value. -/
theorem formed_node (n : NodeFields) : Formed n.toPy := by
  rw [NodeFields.toPy]
  apply formed_dataclass
  · cases n.body <;> rfl
  · cases n.body <;> rfl
  · intro v hv
    simp only [List.cons_append, List.nil_append, List.mem_cons] at hv
    rcases hv with rfl | rfl | rfl | rfl | hv
    · trivial
    · trivial
    · exact formed_unit _
    · exact formed_period _
    · exact formed_fieldsPy _ v hv

/-! ## What the encoder accepts -/

/-- A class without omittable fields is in the domain when its fields are. -/
theorem inDomain_dataclass {c : EngineClass} {fs : List PyValue} (homit : c.omittableFields = [])
    (hlen : fs.length = c.plainFields.length) :
    InDomain (.dataclass c fs) ↔ ∀ v ∈ fs, InDomain v := by
  rw [InDomain, EngineClass.fields, homit, List.map_nil, List.append_nil]
  generalize c.plainFields = names at hlen
  induction fs generalizing names with
  | nil =>
      obtain rfl : names = [] := List.length_eq_zero_iff.mp hlen.symm
      simp [FieldsInDomain]
  | cons v fs ih =>
      cases names with
      | nil => simp at hlen
      | cons name names =>
          rw [List.map_cons, FieldsInDomain, ih names (by simpa using hlen), List.forall_mem_cons]
          simp

theorem natAbs_lt_of_lt {n : ℕ} (h : n < 10000) : (n : ℤ).natAbs < 10 ^ maxIntDigits := by
  rw [Int.natAbs_natCast]
  refine lt_of_lt_of_le h ?_
  calc 10000 = 10 ^ 4 := by norm_num
    _ ≤ 10 ^ maxIntDigits := Nat.pow_le_pow_right (by norm_num) (by decide)

/-- Units are in the domain of the encoder. -/
theorem inDomain_unit (u : TypedUnit) : InDomain u.toPy := by
  rw [TypedUnit.toPy, inDomain_dataclass rfl rfl]
  simp only [List.forall_mem_cons, List.not_mem_nil, false_imp_iff, implies_true, and_true]
  refine ⟨trivial, ?_, ?_⟩
  · cases u.currency <;> trivial
  · cases u.perPeriod <;> trivial

/-- The years of a period are short enough for the encoder. -/
theorem inDomain_period (p : FiscalPeriod) : InDomain p.toPy := by
  cases p with
  | quarter y q hy hq =>
      have h1 := hy.2
      have h2 := hq.2
      rw [FiscalPeriod.toPy, inDomain_dataclass rfl rfl]
      simp only [List.forall_mem_cons, List.not_mem_nil, false_imp_iff, implies_true, and_true]
      exact ⟨natAbs_lt_of_lt (by omega), natAbs_lt_of_lt (by omega)⟩
  | year y hy =>
      have h1 := hy.2
      rw [FiscalPeriod.toPy, inDomain_dataclass rfl rfl]
      simp only [List.forall_mem_cons, List.not_mem_nil, false_imp_iff, implies_true, and_true]
      exact natAbs_lt_of_lt (by omega)

theorem itemsInDomain_iff {l : List PyValue} : ItemsInDomain l ↔ ∀ v ∈ l, InDomain v := by
  induction l with
  | nil => simp [ItemsInDomain]
  | cons v l ih => rw [ItemsInDomain, ih, List.forall_mem_cons]

theorem inDomain_strs (l : List String) : InDomain (strs l) := by
  refine itemsInDomain_iff.mpr ?_
  intro v hv
  obtain ⟨s, -, rfl⟩ := List.mem_map.mp hv
  trivial

/-- **Formulas with finite literals** are in the domain of the encoder. -/
theorem inDomain_ast : ∀ {a : FormulaAST}, a.Closed → InDomain a.toPy
  | .reference i, _ => by
      rw [FormulaAST.toPy, inDomain_dataclass rfl rfl]
      simp [InDomain]
  | .literal d, h => by
      rw [FormulaAST.toPy, inDomain_dataclass rfl rfl]
      simp only [List.forall_mem_cons, List.not_mem_nil, false_imp_iff, implies_true, and_true]
      exact h
  | .unary s e, h => by
      rw [FormulaAST.toPy, inDomain_dataclass rfl rfl]
      simp only [List.forall_mem_cons, List.not_mem_nil, false_imp_iff, implies_true, and_true]
      exact ⟨trivial, @inDomain_ast e h⟩
  | .binary op l r, h => by
      rw [FormulaAST.toPy, inDomain_dataclass rfl rfl]
      simp only [List.forall_mem_cons, List.not_mem_nil, false_imp_iff, implies_true, and_true]
      exact ⟨trivial, @inDomain_ast l h.1, @inDomain_ast r h.2⟩

/-- A node is in the domain when its own fields are. -/
theorem inDomain_node {n : NodeFields} : InDomain n.toPy ↔ ∀ v ∈ n.body.fieldsPy, InDomain v := by
  rw [NodeFields.toPy, inDomain_dataclass (by cases n.body <;> rfl) (by cases n.body <;> rfl)]
  simp only [List.cons_append, List.nil_append, List.forall_mem_cons]
  constructor
  · rintro ⟨-, -, -, -, h⟩
    exact h
  · intro h
    exact ⟨trivial, trivial, inDomain_unit _, inDomain_period _, h⟩

/-! ## Definitions -/

/-- The canonical JSON of a node with its label blanked. -/
def NodeFields.definition (n : NodeFields) : Except EngineError String :=
  canonicalJson (NodeFields.toPy { n with label := "" })

/-- **A definition determines its node** up to label, decimal spellings and UTC offsets. -/
theorem equiv_of_definition_eq {n n' : NodeFields} {d : String} (h : n.definition = .ok d)
    (h' : n'.definition = .ok d) : n.Equiv n' :=
  (same_node.mp (same_of_canonicalJson_eq (inDomain_of_canonicalJson (formed_node _) h)
    (inDomain_of_canonicalJson (formed_node _) h') h h')).2

/-- A node has a definition exactly when the encoder accepts its fields. -/
theorem definition_isOk_iff {n : NodeFields} :
    (∃ d, n.definition = .ok d) ↔ ∀ v ∈ n.body.fieldsPy, InDomain v := by
  constructor
  · rintro ⟨d, hd⟩
    exact (@inDomain_node { n with label := "" }).mp
      (inDomain_of_canonicalJson (formed_node _) hd)
  · intro h
    obtain ⟨j, -, hj⟩ := canonicalJson_ok ((@inDomain_node { n with label := "" }).mpr h)
    exact ⟨_, hj⟩

end CalcEngine

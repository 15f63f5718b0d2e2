/-
# The bounded arithmetic grammar

Formula trees of `formulas.py`: their validation, their references, the unit they infer and the
quantity they compute.

`validateFormula` walks a tree with an explicit stack under a node and a depth limit;
`validateFormula_eq_ok_iff` says what it accepts.  `evaluateFormula_spec` is the type soundness of
one formula: over quantities of the declared units it returns the inferred unit or raises an
arithmetic error.
-/
import EvidenceLab.Dict
import EvidenceLab.Canonical

namespace CalcEngine

open Decimal (numDigits)

/-! ## Trees -/

/-- The sign of a `Unary`. -/
inductive Sign where
  | plus
  | minus
  deriving DecidableEq, Repr

def Sign.symbol : Sign → String
  | .plus => "+"
  | .minus => "-"

/-- The keys of `_OPERATIONS`. -/
def Operator.symbol : Operator → String
  | .add => "+"
  | .sub => "-"
  | .mul => "*"
  | .div => "/"

/-- `FormulaAST`. -/
inductive FormulaAST where
  | reference (nodeId : String)
  | literal (value : Decimal)
  | unary (operator : Sign) (operand : FormulaAST)
  | binary (operator : Operator) (left right : FormulaAST)
  deriving DecidableEq, Repr

def maxAstNodes : ℕ := 512

def maxAstDepth : ℕ := 64

/-- `Literal.__post_init__`. -/
def literalPostInit (value : Decimal) : Except EngineError Unit :=
  if calcContext.prec < numDigits value.coeff then
    .error (.formula ("literal looks like a binary float converted to Decimal; "
      ++ "construct from a decimal string"))
  else if ¬ (-250000 ≤ value.exp ∧ value.exp ≤ 250000) then
    .error (.formula "literal exponent exceeds canonical Decimal bounds")
  else .ok ()

/-- The loop of `validate_formula`: the nodes still allowed and the stack of subtrees with their
depths. -/
def validateLoop : ℕ → List (FormulaAST × ℕ) → Except EngineError Unit
  | _, [] => .ok ()
  | 0, _ :: _ => .error (.formula "formula exceeds AST node or depth limit")
  | n + 1, (node, depth) :: stack =>
    if maxAstDepth < depth then .error (.formula "formula exceeds AST node or depth limit")
    else match node with
      | .reference nodeId => do
        requireSafeId nodeId "reference" .formula
        validateLoop n stack
      | .literal value => do
        literalPostInit value
        validateLoop n stack
      | .unary _ operand => validateLoop n ((operand, depth + 1) :: stack)
      | .binary _ left right => validateLoop n ((left, depth + 1) :: (right, depth + 1) :: stack)

/-- `validate_formula`. -/
def validateFormula (ast : FormulaAST) : Except EngineError Unit :=
  validateLoop maxAstNodes [(ast, 1)]

namespace FormulaAST

/-- The number of nodes. -/
def size : FormulaAST → ℕ
  | .reference _ => 1
  | .literal _ => 1
  | .unary _ e => e.size + 1
  | .binary _ l r => l.size + r.size + 1

/-- The depth; a leaf has depth one. -/
def depth : FormulaAST → ℕ
  | .reference _ => 1
  | .literal _ => 1
  | .unary _ e => e.depth + 1
  | .binary _ l r => max l.depth r.depth + 1

/-- Every reference is a safe id and every literal is encodable. -/
def Closed : FormulaAST → Prop
  | .reference nodeId => isSafeId nodeId = true
  | .literal value => Encodable value
  | .unary _ e => e.Closed
  | .binary _ l r => l.Closed ∧ r.Closed

/-- The references from left to right, with repetitions. -/
def refs : FormulaAST → List String
  | .reference nodeId => [nodeId]
  | .literal _ => []
  | .unary _ e => e.refs
  | .binary _ l r => l.refs ++ r.refs

end FormulaAST

/-- `formula_dependencies`: each reference at its first occurrence from the left. -/
def formulaDependencies (ast : FormulaAST) : Except EngineError (List String) := do
  validateFormula ast
  return Dict.fromKeys ast.refs

/-! ## Units and quantities -/

/-- `infer` of `infer_formula_unit`. -/
def inferUnit (units : Dict String TypedUnit) : FormulaAST → Except EngineError TypedUnit
  | .reference nodeId =>
    match units.get? nodeId with
    | some u => .ok u
    | none => .error (.missingInput nodeId "missing formula reference")
  | .literal _ => .ok TypedUnit.ratio
  | .unary _ operand => inferUnit units operand
  | .binary op left right => do
    let l ← inferUnit units left
    let r ← inferUnit units right
    op.unit l r

/-- `infer_formula_unit`. -/
def inferFormulaUnit (ast : FormulaAST) (units : Dict String TypedUnit) :
    Except EngineError TypedUnit := do
  validateFormula ast
  inferUnit units ast

/-- The sign of a `Unary` applied to a value; `copy_negate` is exact. -/
def Sign.apply : Sign → Decimal → Decimal
  | .plus, v => v
  | .minus, v => v.copyNegate

/-- `compute` of `evaluate_formula`. -/
def computeFormula (quantities : Dict String Quantity) :
    FormulaAST → Except EngineError Quantity
  | .reference nodeId =>
    match quantities.get? nodeId with
    | some q => .ok q
    | none => .error (.missingInput nodeId "missing formula reference")
  | .literal value => Quantity.make value TypedUnit.ratio
  | .unary sign operand => do
    let q ← computeFormula quantities operand
    match calcContext.plus (sign.apply q.value) with
    | .ok v => Quantity.make v q.unit
    | .error s => throw (.arithmetic (signalName s) "formula arithmetic failed")
  | .binary op left right => do
    let l ← computeFormula quantities left
    let r ← computeFormula quantities right
    Quantity.combine op l r

/-- `evaluate_formula`. -/
def evaluateFormula (ast : FormulaAST) (quantities : Dict String Quantity) :
    Except EngineError Quantity := do
  validateFormula ast
  computeFormula quantities ast

/-! ## What validation accepts -/

theorem literalPostInit_eq_ok_iff {v : Decimal} {u : Unit} :
    literalPostInit v = .ok u ↔ Encodable v := by
  unfold literalPostInit
  split_ifs with h1 h2
  · simp only [false_iff]
    intro h
    exact absurd h.digits (not_le.mpr h1)
  · simp only [true_iff]
    exact ⟨not_lt.mp h1, h2.1, h2.2⟩
  · simp only [false_iff]
    exact fun h => h2 ⟨h.exp_ge, h.exp_le⟩

theorem FormulaAST.size_pos (a : FormulaAST) : 0 < a.size := by
  cases a <;> simp [FormulaAST.size]

/-- The loop accepts a stack whose trees fit the limits together. -/
theorem validateLoop_eq_ok_iff : ∀ (n : ℕ) (stack : List (FormulaAST × ℕ)),
    validateLoop n stack = .ok () ↔
      (stack.map (fun s => s.1.size)).sum ≤ n
        ∧ ∀ s ∈ stack, s.1.depth + s.2 ≤ maxAstDepth + 1 ∧ s.1.Closed
  | n, [] => by cases n <;> simp [validateLoop]
  -- no nodes are left, and every tree has one
  | 0, (a, d) :: stack => by
      have := a.size_pos
      simp only [validateLoop, reduceCtorEq, List.map_cons, List.sum_cons, false_iff, not_and]
      omega
  | n + 1, (a, d) :: stack => by
      -- a tree that stands too deep is refused before its node is read
      by_cases hd : maxAstDepth < d
      · have hfail : validateLoop (n + 1) ((a, d) :: stack)
            = .error (.formula "formula exceeds AST node or depth limit") := by
          cases a <;> simp only [validateLoop, if_pos hd]
        simp only [hfail, reduceCtorEq, List.mem_cons, false_iff, not_and]
        intro _ h
        have h1 := (h (a, d) (Or.inl rfl)).1
        have h2 : 0 < a.depth := by cases a <;> simp [FormulaAST.depth]
        simp only at h1
        omega
      · cases a with
        | reference i =>
            simp only [validateLoop, if_neg hd, Except.bind_eq_ok_iff, requireSafeId_eq_ok_iff,
              exists_const,
              validateLoop_eq_ok_iff n stack, List.map_cons, List.sum_cons, FormulaAST.size,
              List.forall_mem_cons, FormulaAST.depth, FormulaAST.Closed]
            constructor
            · rintro ⟨hi, hs, hall⟩
              exact ⟨by omega, ⟨by omega, hi⟩, hall⟩
            · rintro ⟨hs, ⟨-, hi⟩, hall⟩
              exact ⟨hi, by omega, hall⟩
        | literal v =>
            simp only [validateLoop, if_neg hd, Except.bind_eq_ok_iff, literalPostInit_eq_ok_iff,
              exists_const,
              validateLoop_eq_ok_iff n stack, List.map_cons, List.sum_cons, FormulaAST.size,
              List.forall_mem_cons, FormulaAST.depth, FormulaAST.Closed]
            constructor
            · rintro ⟨hi, hs, hall⟩
              exact ⟨by omega, ⟨by omega, hi⟩, hall⟩
            · rintro ⟨hs, ⟨-, hi⟩, hall⟩
              exact ⟨hi, by omega, hall⟩
        | unary op e =>
            simp only [validateLoop, if_neg hd, validateLoop_eq_ok_iff n, List.map_cons,
              List.sum_cons, FormulaAST.size,
              List.forall_mem_cons, FormulaAST.depth, FormulaAST.Closed]
            constructor
            · rintro ⟨hs, ⟨hd, hc⟩, hall⟩
              exact ⟨by omega, ⟨by omega, hc⟩, hall⟩
            · rintro ⟨hs, ⟨hd, hc⟩, hall⟩
              exact ⟨by omega, ⟨by omega, hc⟩, hall⟩
        | binary op l r =>
            simp only [validateLoop, if_neg hd, validateLoop_eq_ok_iff n, List.map_cons,
              List.sum_cons, FormulaAST.size,
              List.forall_mem_cons, FormulaAST.depth, FormulaAST.Closed]
            constructor
            · rintro ⟨hs, ⟨hl, hlc⟩, ⟨hr, hrc⟩, hall⟩
              exact ⟨by omega, ⟨by omega, hlc, hrc⟩, hall⟩
            · rintro ⟨hs, ⟨hd, hlc, hrc⟩, hall⟩
              exact ⟨by omega, ⟨by omega, hlc⟩, ⟨by omega, hrc⟩, hall⟩

/-- **What `validate_formula` accepts**: trees within both limits whose leaves are valid. -/
theorem validateFormula_eq_ok_iff {ast : FormulaAST} {u : Unit} :
    validateFormula ast = .ok u ↔
      ast.size ≤ maxAstNodes ∧ ast.depth ≤ maxAstDepth ∧ ast.Closed := by
  cases u
  rw [validateFormula, validateLoop_eq_ok_iff]
  simp only [List.map_cons, List.map_nil, List.sum_cons, List.sum_nil, add_zero,
    List.forall_mem_cons, List.not_mem_nil, false_imp_iff, implies_true, and_true]
  constructor
  · rintro ⟨hs, hd, hc⟩
    exact ⟨hs, by omega, hc⟩
  · rintro ⟨hs, hd, hc⟩
    exact ⟨hs, by omega, hc⟩

/-! ## Type soundness of a formula -/

/-- An arithmetic `FormulaError`: an operation that could not be completed, a failed sign or
convergence test, or a value that does not fit its quantum. -/
def EngineError.IsArithmetic : EngineError → Prop
  | .arithmetic _ _ => True
  | .quantize _ _ => True
  | _ => False

/-- `compute` over quantities of the declared units. -/
theorem computeFormula_spec {units : Dict String TypedUnit} {quantities : Dict String Quantity} :
    ∀ (ast : FormulaAST) {u : TypedUnit}, ast.Closed → inferUnit units ast = .ok u →
      (∀ i ∈ ast.refs, ∀ v, units.get? i = some v →
        ∃ q, quantities.get? i = some q ∧ q.unit = v) →
      (∃ q, computeFormula quantities ast = .ok q ∧ q.unit = u)
        ∨ ∃ e, computeFormula quantities ast = .error e ∧ e.IsArithmetic
  | .reference i, u, _, hu, henv => by
      rw [inferUnit] at hu
      cases hi : units.get? i with
      | none => simp [hi] at hu
      | some v =>
          rw [hi] at hu
          cases hu
          obtain ⟨q, hq, hqu⟩ := henv i (by simp [FormulaAST.refs]) u hi
          exact .inl ⟨q, by rw [computeFormula, hq], hqu⟩
  | .literal v, u, hc, hu, _ => by
      cases hu
      exact .inl ⟨_, Quantity.make_eq_ok_iff.mpr ⟨Encodable.digits hc, rfl⟩, rfl⟩
  -- the signed operand is rounded to the context
  | .unary sign e, u, hc, hu, henv => by
      rw [inferUnit] at hu
      rw [computeFormula]
      rcases computeFormula_spec e hc hu henv with ⟨q, hq, hqu⟩ | ⟨e', he, harith⟩
      · rw [hq, Except.ok_bind]
        cases hp : calcContext.plus (sign.apply q.value) with
        | ok v =>
            exact .inl ⟨⟨v, q.unit⟩,
              Quantity.make_eq_ok_iff.mpr ⟨calcContext.plus_numDigits hp, rfl⟩, hqu⟩
        | error s => exact .inr ⟨_, rfl, trivial⟩
      · exact .inr ⟨e', by rw [he]; rfl, harith⟩
  | .binary op l r, u, hc, hu, henv => by
      rw [inferUnit] at hu
      obtain ⟨ul, hl, hu⟩ := Except.bind_eq_ok_iff.mp hu
      obtain ⟨ur, hr, hu⟩ := Except.bind_eq_ok_iff.mp hu
      have hleft := computeFormula_spec l hc.1 hl
        (fun i hi => henv i (by simp [FormulaAST.refs, hi]))
      have hright := computeFormula_spec r hc.2 hr
        (fun i hi => henv i (by simp [FormulaAST.refs, hi]))
      rw [computeFormula]
      -- the operands are computed from left to right
      rcases hleft with ⟨ql, hql, hlu⟩ | ⟨e', he, harith⟩
      · rcases hright with ⟨qr, hqr, hru⟩ | ⟨e', he, harith⟩
        · rw [hql, hqr, Except.ok_bind, Except.ok_bind]
          have hunit : op.unit ql.unit qr.unit = .ok u := by rw [hlu, hru]; exact hu
          cases hcomb : Quantity.combine op ql qr with
          | ok q =>
              have := (Quantity.combine_eq_ok_iff.mp hcomb).2
              rw [hunit, Except.ok.injEq] at this
              exact .inl ⟨q, rfl, this.symm⟩
          | error e' =>
              obtain ⟨msg, rfl⟩ := Quantity.combine_error hunit hcomb
              exact .inr ⟨_, rfl, trivial⟩
        · exact .inr ⟨e', by rw [hql, he]; rfl, harith⟩
      · exact .inr ⟨e', by rw [he]; rfl, harith⟩

/-- **Type soundness of a formula.** -/
theorem evaluateFormula_spec {units : Dict String TypedUnit} {quantities : Dict String Quantity}
    {ast : FormulaAST} {u : TypedUnit} (hu : inferFormulaUnit ast units = .ok u)
    (henv : ∀ i ∈ ast.refs, ∀ v, units.get? i = some v →
      ∃ q, quantities.get? i = some q ∧ q.unit = v) :
    (∃ q, evaluateFormula ast quantities = .ok q ∧ q.unit = u)
      ∨ ∃ e, evaluateFormula ast quantities = .error e ∧ e.IsArithmetic := by
  obtain ⟨⟨⟩, hvalid, hinfer⟩ := Except.bind_eq_ok_iff.mp hu
  have hc := (validateFormula_eq_ok_iff.mp hvalid).2.2
  rw [evaluateFormula, hvalid, Except.ok_bind]
  exact computeFormula_spec ast hc hinfer henv

/-! ## Numbers only -/

/-- Two trees that differ only in the spelling of their literals. -/
def FormulaAST.Equiv : FormulaAST → FormulaAST → Prop
  | .reference i, .reference j => i = j
  | .literal v, .literal w => v.value = w.value
  | .unary s e, .unary s' e' => s = s' ∧ e.Equiv e'
  | .binary op l r, .binary op' l' r' => op = op' ∧ l.Equiv l' ∧ r.Equiv r'
  | _, _ => False

/-! ## Renaming -/

end CalcEngine

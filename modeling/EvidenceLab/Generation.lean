/-
# Generation of claims

The model of `generation.py`: the schema of the provider's output, the decimal of a numeric claim,
the check of every citation against the selected context, and the stage of the pipeline that catches
the one typed error.

The schema lets every integer through as a scale, but a numeric tuple has four legal scales, and its
constructor raises a `ValueError` for the others.  `output_grounded_or_refused_iff`: the output of a
model is grounded or refused exactly when no such scale is reached.
-/
import EvidenceLab.JsonSchema
import EvidenceLab.Verification

namespace Retrieval

open JsonSchema

/-! ## The schema of the output -/

/-- The pattern of a decimal: a sign, digits, and a point with digits after it. -/
def decimalPattern (cs : List Char) : Bool :=
  let body := if cs.head? = some '-' then cs.tail else cs
  let whole := body.takeWhile Char.isDigit
  match body.dropWhile Char.isDigit with
  | [] => !whole.isEmpty
  | c :: fraction => c == '.' && !whole.isEmpty && !fraction.isEmpty && fraction.all Char.isDigit

def nonEmptyString : Schema := { types := [.string], minLength := some 1 }

def citationSchema : Schema :=
  { types := [.object], additionalProperties := false, required := ["item_id", "quote"],
    properties := [("item_id", nonEmptyString), ("quote", nonEmptyString)] }

def valueSchema : Schema :=
  { types := [.string], minLength := some 1, pattern := some decimalPattern }

def numericSchema : Schema :=
  { types := [.object, .null], additionalProperties := false, required :=
    ["value", "unit", "period", "scale"],
    properties :=
      [("value", valueSchema), ("unit", { types := [.string, .null] }),
        ("period", { types := [.string, .null] }),
        ("scale", { types := [.integer] })] }

def citationsSchema : Schema :=
  { types := [.array], minItems := some 1, items := some citationSchema }

def claimSchema : Schema :=
  { types := [.object], additionalProperties := false, required := ["text", "citations", "numeric"],
    properties :=
    [("text", nonEmptyString), ("citations", citationsSchema), ("numeric", numericSchema)] }

def claimsSchema : Schema := { types := [.array], items := some claimSchema }

def abstainSchema : Schema :=
  { types := [.object, .null], additionalProperties := false, required := ["reason"],
    properties := [("reason", nonEmptyString)] }

/-- `CLAIM_JSON_SCHEMA`. -/
def outputSchema : Schema :=
  { types := [.object], additionalProperties := false, required := ["claims", "abstain"],
    properties := [("claims", claimsSchema), ("abstain", abstainSchema)] }

/-! ## From the output to the claims -/

/-- What the conversion can raise.  `shape` stands for what a value outside the schema would raise.
-/
inductive GenerationError where
  | contract (code message : String)
  | illegalScale (scale : ℤ)
  | shape (key : String)
  deriving DecidableEq

/-- `_normalize`. -/
def normalize (text : String) : List Char := PyText.strip (PyText.collapse false text.toList)

/-- `validate_claims_output`. -/
def validateClaimsOutput (parsed : JsonValue) : Except GenerationError Unit :=
  match errors outputSchema "$" parsed with
  | [] => .ok ()
  | first :: _ => .error (.contract "CLAIMS_OUTPUT_SCHEMA_INVALID"
      ("provider claims output failed claims-output/v1 validation: " ++ first))

/-- `Decimal(text)` for the texts of the pattern, which are all that the schema lets through. -/
def decimalOf (cs : List Char) : Option Decimal :=
  if decimalPattern cs then
    let body := if cs.head? = some '-' then cs.tail else cs
    let fraction := (body.dropWhile Char.isDigit).tail
    some ⟨cs.head? = some '-', Nat.ofDigitChars 10 (body.takeWhile Char.isDigit ++ fraction) 0,
      -fraction.length⟩
  else none

/-- The string under a key. -/
def stringAt (raw : JsonValue) (key : String) : Except GenerationError String :=
  match member? raw key with
  | some (.str s) => .ok s
  | _ => .error (.shape key)

/-- `x if isinstance(x, str) else ""` of the value under a key. -/
def stringOrEmpty (raw : JsonValue) (key : String) : String :=
  match member? raw key with
  | some (.str s) => s
  | _ => ""

/-- The items of the array under a key. -/
def itemsAt (raw : JsonValue) (key : String) : List JsonValue :=
  match member? raw key with
  | some (.arr items) => items
  | _ => []

/-- `_numeric_from`. -/
def numericFrom (raw : JsonValue) (path : String) : Except GenerationError NumericTuple := do
  let text ← stringAt raw "value"
  let value ← Except.orRaise (decimalOf text.toList)
    (.contract "CLAIM_NUMERIC_NOT_DECIMAL"
    (path ++ ": claim numeric value is not a decimal string"))
  match member? raw "scale" with
  | some (.int scale) =>
      if h : scale ∈ scaleExponents then
        return ⟨value, stringOrEmpty raw "unit", stringOrEmpty raw "period", scale, h⟩
      else throw (.illegalScale scale)
  | _ => throw (.shape "scale")

/-- One citation of the loop. -/
def citationFrom (accepted : Dict String ContextItem) (path : String) (raw : JsonValue)
    (index : ℕ) :
    Except GenerationError ClaimCitation := do
  let itemId ← stringAt raw "item_id"
  let item ← Except.orRaise (accepted.get? itemId) (.contract "UNKNOWN_CONTEXT_ITEM"
    (path ++ ".citations[" ++ toString index ++ "]: item is not a selected context item"))
  let quote ← stringAt raw "quote"
  Except.raiseIf (normalize quote = [] ∨ ¬ normalize quote <:+: normalize item.text)
    (.contract "QUOTE_NOT_IN_CONTEXT_ITEM"
    (path ++ ".citations[" ++ toString index ++ "]: quote is not a span of the cited item"))
  return ⟨item.itemId, item.sourceSpanId, .irrelevant, none, none, none, none, none, some quote⟩

/-- `_numeric_from(raw_numeric)` for an object, else no numbers. -/
def claimNumeric (raw : JsonValue) (path : String) : Except GenerationError (Option NumericTuple) :=
  match member? raw "numeric" with
  | some (.obj members) => (numericFrom (.obj members) path).map some
  | _ => .ok none

theorem lineage_unsupported : ClaimStatus.unsupported = .derived →
    ([] : List (String × JsonValue)) ≠ [] := by simp

/-- One claim of the loop. -/
def claimFrom (accepted : Dict String ContextItem) (raw : JsonValue) (ord : ℕ) :
    Except GenerationError GeneratedClaim := do
  let path := "$.claims[" ++ toString ord ++ "]"
  let citations ← (itemsAt raw "citations").zipIdx.mapM fun c => citationFrom accepted path c.1 c.2
  let numeric ← claimNumeric raw path
  let text ← stringAt raw "text"
  return ⟨ord, text, .unsupported, citations, none, [], numeric, lineage_unsupported⟩

/-- `_claims_from`: the claims, and the reason of an abstention. -/
def claimsFrom (parsed : JsonValue) (context : List ContextItem) :
    Except GenerationError (List GeneratedClaim × Option String) :=
  match parsed with
  | .null => .error
      (.contract "CLAIMS_OUTPUT_MISSING" "provider returned no parsed object and did not refuse")
  | parsed => do
      validateClaimsOutput parsed
      match member? parsed "abstain" with
      | some (.obj members) =>
          match member? (.obj members) "reason" with
          | some (.str reason) => return ([], some reason)
          | _ => return ([], some "unspecified")
      | _ =>
          let claims ← (itemsAt parsed "claims").zipIdx.mapM fun c =>
            claimFrom (acceptedItems context) c.1 c.2
          return (claims, none)

/-! ## The stage of the pipeline -/

/-- What the provider reports about a call. -/
structure Usage where
  provider : String
  model : String
  inputTokens : ℕ
  outputTokens : ℕ
  responseId : String
  estimatedCostUsd : Decimal

/-- `StructuredModelResult`; a call without a parsed object has `null`. -/
structure ModelResult where
  usage : Usage
  parsed : JsonValue
  refused : Bool
  refusal : Option String

structure GenerationResult where
  claims : List GeneratedClaim
  usage : Usage
  refused : Bool
  refusal : Option String
  abstained : Bool
  abstainReason : Option String

/-- `generate`, from the provider's result on.  A contract error leaves with the usage of the call.
-/
def generate (result : ModelResult) (context : List ContextItem) :
    Except (GenerationError × Option GenerationResult) GenerationResult :=
  if result.refused then .ok ⟨[], result.usage, true, result.refusal, false, none⟩
  else
    match claimsFrom result.parsed context with
    | .ok (claims, reason) => .ok ⟨claims, result.usage, false, none, reason.isSome, reason⟩
    | .error (.contract code message) =>
        .error (.contract code message, some ⟨[], result.usage, false, none, true, none⟩)
    | .error e => .error (e, none)

/-- The generation stage of the pipeline, which turns a contract error with its usage into an
abstention with a code. -/
def generationStage (result : ModelResult) (context : List ContextItem) :
    Except GenerationError (GenerationResult × Option String) :=
  match generate result context with
  | .ok generation => .ok (generation, none)
  | .error (.contract code _, some usage) => .ok (usage, some code)
  | .error (e, _) => .error e

/-! ## Grounded or refused -/

/-- A raw citation is grounded: its item is accepted, and its quote is a span of the text of the
item. -/
def Grounded (accepted : Dict String ContextItem) (raw : JsonValue) : Prop :=
  ∃ itemId quote item, member? raw "item_id" = some (.str itemId) ∧
    member? raw "quote" = some (.str quote)
    ∧ accepted.get? itemId = some item ∧ normalize quote ≠ []
      ∧ normalize quote <:+: normalize item.text

def ClaimGrounded (accepted : Dict String ContextItem) (raw : JsonValue) : Prop :=
  ∀ citation ∈ itemsAt raw "citations", Grounded accepted citation

/-- The numbers of a raw claim have a scale that no numeric tuple has. -/
def IllegalScale (raw : JsonValue) : Prop :=
  ∃ numeric scale, member? raw "numeric" = some numeric ∧
    member? numeric "scale" = some (.int scale)
    ∧ scale ∉ scaleExponents

/-- A claim with an illegal scale is refused before its numbers are read: for a citation of its own
or of an earlier claim. -/
def ScalesRefused (accepted : Dict String ContextItem) (raws : List JsonValue) : Prop :=
  ∀ earlier raw later, raws = earlier ++ raw :: later → IllegalScale raw →
    ∃ claim ∈ earlier ++ [raw], ¬ ClaimGrounded accepted claim

/-- The only error that the pipeline catches. -/
def GenerationError.IsContract (e : GenerationError) : Prop :=
  ∃ code message, e = .contract code message

/-- A citation names an item of the context, with the span of the item and a quote of its text. -/
def CitesContext (context : List ContextItem) (citation : ClaimCitation) : Prop :=
  ∃ item ∈ context, citation.itemId = item.itemId ∧ citation.sourceSpanId = item.sourceSpanId
    ∧ ∃ quote, citation.quote = some quote ∧ normalize quote ≠ []
      ∧ normalize quote <:+: normalize item.text

/-- The output of a model is grounded or refused: it gives an abstention or claims, whose citations
are grounded in the context and pass the integrity check, or a contract error, and nothing else. -/
def GroundedOrRefused (parsed : JsonValue) (context : List ContextItem) : Prop :=
  (claimsFrom parsed context).Yields
    (fun r => (r.2.isSome → r.1 = [])
      ∧ (∀ claim ∈ r.1, ∀ citation ∈ claim.citations, CitesContext context citation)
      ∧ ∀ ctx quotients code message, verifyClaims ctx quotients r.1 context
        ≠ .error (.integrity code message))
    GenerationError.IsContract

/-! ## One citation, one claim, the whole loop -/

section Loops

variable {context : List ContextItem}

/-- The citation and its item, as the loop leaves them. -/
def Cites (context : List ContextItem) (citation : ClaimCitation) : Prop :=
  ∃ item, (acceptedItems context).get? citation.itemId = some item ∧
    citation.sourceSpanId = item.sourceSpanId
    ∧ ∃ quote, citation.quote = some quote ∧ normalize quote ≠ []
      ∧ normalize quote <:+: normalize item.text

/-- A citation of an accepted item cites the context. -/
theorem Cites.citesContext {citation : ClaimCitation} (h : Cites context citation) :
    CitesContext context citation := by
  obtain ⟨item, hitem, hspan, hquote⟩ := h
  obtain ⟨hmem, hid⟩ := mem_of_acceptedItems hitem
  exact ⟨item, hmem, hid.symm, hspan, hquote⟩

/-- A loop whose steps succeed exactly for the good elements succeeds exactly when all are good. -/
theorem mapM_cases {α β : Type} {l : List α} {f : α → Except GenerationError β}
    {P : α → Prop} {Q : β → Prop}
    {E : GenerationError → Prop}
    (h : ∀ x ∈ l, (P x ∧ ∃ y, f x = .ok y ∧ Q y) ∨ (¬ P x ∧ ∃ e, f x = .error e ∧ E e)) :
    ((∀ x ∈ l, P x) ∧ ∃ ys, l.mapM f = .ok ys ∧ ∀ y ∈ ys, Q y)
      ∨ ((¬ ∀ x ∈ l, P x) ∧ ∃ e, l.mapM f = .error e ∧ E e) := by
  cases hrun : l.mapM f with
  | ok ys =>
      refine .inl ⟨fun x hx => ?_, ys, rfl, fun y hy => ?_⟩
      · obtain ⟨y, hy, hfy⟩ := Except.mapM_ok_of_mem hrun hx
        rcases h x hx with ⟨hP, -⟩ | ⟨-, e, he, -⟩
        · exact hP
        · cases he.symm.trans hfy
      · obtain ⟨x, hx, hfx⟩ := Except.exists_of_mem_mapM hrun hy
        rcases h x hx with ⟨-, y', hy', hQ⟩ | ⟨-, e, he, -⟩
        · cases hy'.symm.trans hfx
          exact hQ
        · cases he.symm.trans hfx
  | error e =>
      obtain ⟨x, hx, hfx⟩ := Except.mapM_eq_error hrun
      rcases h x hx with ⟨-, y, hy, -⟩ | ⟨hP, e', he', hE⟩
      · cases hy.symm.trans hfx
      · cases he'.symm.trans hfx
        exact .inr ⟨fun hall => hP (hall x hx), e, rfl, hE⟩

theorem forall_zipIdx {α : Type} {l : List α} {P : α → Prop} (k : ℕ) :
    (∀ x ∈ l.zipIdx k, P x.1) ↔ ∀ x ∈ l, P x := by
  induction l generalizing k with
  | nil => simp
  | cons x l ih =>
      rw [List.zipIdx_cons, List.forall_mem_cons, List.forall_mem_cons, ih]

/-- A required string of an object that conforms is there. -/
theorem stringAt_of_conforms {schema s : Schema} {members : List (String × JsonValue)}
    (h : Conforms schema (.obj members)) (key : String) (hkey : key ∈ schema.required)
    (hs : Dict.get? schema.properties key = some s) (ht : s.types = [.string]) :
    ∃ text, member? (.obj members) key = some (.str text) ∧ stringAt (.obj members) key = .ok text
      ∧ ∀ p ∈ s.pattern, p text.toList = true := by
  obtain ⟨x, hx, hconforms⟩ := h.member key hkey hs
  obtain ⟨text, rfl, hpattern⟩ := hconforms.isStr ht
  refine ⟨text, hx, ?_, hpattern⟩
  simp only [stringAt, hx]

/-- A citation becomes an edge exactly when it is grounded; else it is a contract error. -/
theorem citationFrom_cases {raw : JsonValue} (h : Conforms citationSchema raw)
    (path : String) (index : ℕ) :
    (Grounded (acceptedItems context) raw
        ∧ ∃ c, citationFrom (acceptedItems context) path raw index = .ok c ∧ Cites context c)
      ∨ (¬ Grounded (acceptedItems context) raw
        ∧ ∃ e, citationFrom (acceptedItems context) path raw index = .error e ∧ e.IsContract) := by
  obtain ⟨members, rfl⟩ := h.isObj rfl
  obtain ⟨itemId, hid, hidAt, -⟩ := stringAt_of_conforms h "item_id" (by decide) rfl rfl
  obtain ⟨quote, hquote, hquoteAt, -⟩ := stringAt_of_conforms h "quote" (by decide) rfl rfl
  unfold citationFrom
  rw [hidAt, hquoteAt]
  simp only [Except.ok_bind]
  cases hitem : (acceptedItems context).get? itemId with
  | none =>
      refine .inr ⟨?_, _, rfl, _, _, rfl⟩
      rintro ⟨itemId', quote', item, hid', -, hitem', -⟩
      cases hid.symm.trans hid'
      cases hitem.symm.trans hitem'
  | some item =>
      by_cases hspan : normalize quote = [] ∨ ¬ normalize quote <:+: normalize item.text
      · simp only [Except.ok_bind, Except.orRaise, Except.raiseIf, if_pos hspan]
        refine .inr ⟨?_, _, rfl, _, _, rfl⟩
        rintro ⟨itemId', quote', item', hid', hquote', hitem', hne, hin⟩
        cases hid.symm.trans hid'
        cases hquote.symm.trans hquote'
        cases hitem.symm.trans hitem'
        exact hspan.elim hne fun hout => hout hin
      · obtain ⟨hne, hin⟩ := not_or.mp hspan
        have hin := not_not.mp hin
        refine .inl ⟨⟨itemId, quote, item, hid, hquote, hitem, hne, hin⟩,
          ⟨item.itemId, item.sourceSpanId, .irrelevant, none, none, none, none, none, some quote⟩,
          ?_, ?_⟩
        · simp only [Except.ok_bind, Except.orRaise, Except.raiseIf, if_neg hspan]
          rfl
        · refine ⟨item, ?_, rfl, quote, rfl, hne, hin⟩
          rw [(mem_of_acceptedItems hitem).2]
          exact hitem

/-- A text of the pattern is a decimal. -/
theorem decimalOf_of_pattern {cs : List Char} (h : decimalPattern cs = true) :
    ∃ d, decimalOf cs = some d := by
  unfold decimalOf
  rw [if_pos h]
  exact ⟨_, rfl⟩

/-- The numbers of a claim are read exactly when their scale is legal. -/
theorem claimNumeric_cases {members : List (String × JsonValue)}
    (h : Conforms claimSchema (.obj members)) (path : String) :
    (¬ IllegalScale (.obj members) ∧ ∃ n, claimNumeric (.obj members) path = .ok n)
      ∨ (IllegalScale (.obj members) ∧ ∃ scale, claimNumeric (.obj members) path
        = .error (.illegalScale scale)) := by
  obtain ⟨numeric, hnumeric, hconforms⟩ := h.member "numeric" (s := numericSchema) (by decide) rfl
  unfold claimNumeric
  rw [hnumeric]
  rcases hconforms.isObj_or_null rfl with ⟨inner, rfl⟩ | rfl
  · obtain ⟨text, -, htext, hpattern⟩ := stringAt_of_conforms hconforms "value" (by decide) rfl rfl
    obtain ⟨d, hd⟩ := decimalOf_of_pattern (hpattern decimalPattern rfl)
    obtain ⟨x, hscale, hint⟩ :=
      hconforms.member "scale" (s := { types := [.integer] }) (by decide) rfl
    obtain ⟨scale, rfl⟩ := hint.isInt rfl
    by_cases hlegal : scale ∈ scaleExponents
    · refine .inl ⟨?_, some ⟨d, stringOrEmpty (.obj inner) "unit",
      stringOrEmpty (.obj inner) "period", scale, hlegal⟩, ?_⟩
      · rintro ⟨numeric', scale', hnumeric', hscale', hillegal⟩
        cases hnumeric.symm.trans hnumeric'
        cases hscale.symm.trans hscale'
        exact hillegal hlegal
      · simp only [numericFrom, htext, hd, hscale, Except.ok_bind, Except.orRaise, dif_pos hlegal]
        rfl
    · refine .inr ⟨⟨_, scale, hnumeric, hscale, hlegal⟩, scale, ?_⟩
      simp only [numericFrom, htext, hd, hscale, Except.ok_bind, Except.orRaise, dif_neg hlegal]
      rfl
  · refine .inl ⟨?_, none, rfl⟩
    rintro ⟨numeric', scale', hnumeric', hscale', -⟩
    cases hnumeric.symm.trans hnumeric'
    cases hscale'

/-- One claim: read when it is grounded and its scale legal, a contract error when it is not
grounded. -/
theorem claimFrom_cases (context : List ContextItem) {raw : JsonValue}
    (h : Conforms claimSchema raw) (ord : ℕ) :
    (ClaimGrounded (acceptedItems context) raw ∧ ¬ IllegalScale raw
        ∧ ∃ claim, claimFrom (acceptedItems context) raw ord = .ok claim ∧ ∀ c ∈ claim.citations,
        Cites context c)
      ∨ (¬ ClaimGrounded (acceptedItems context) raw
        ∧ ∃ e, claimFrom (acceptedItems context) raw ord = .error e ∧ e.IsContract)
      ∨ (ClaimGrounded (acceptedItems context) raw ∧ IllegalScale raw
        ∧ ∃ scale, claimFrom (acceptedItems context) raw ord = .error (.illegalScale scale)) := by
  obtain ⟨members, rfl⟩ := h.isObj rfl
  obtain ⟨text, -, htext, -⟩ := stringAt_of_conforms h "text" (by decide) rfl rfl
  obtain ⟨x, hx, hcitations⟩ := h.member "citations" (s := citationsSchema) (by decide) rfl
  obtain ⟨items, rfl⟩ := hcitations.isArr rfl
  have hitems : itemsAt (.obj members) "citations" = items := by
    simp only [itemsAt, hx]
  have hloop := mapM_cases (l := items.zipIdx) (P := fun c => Grounded (acceptedItems context) c.1)
    (f :=
    fun c => citationFrom (acceptedItems context) ("$.claims[" ++ toString ord ++ "]") c.1 c.2)
    (fun c hc =>
    citationFrom_cases (hcitations.item rfl ((forall_zipIdx 0).mpr (fun _ h => h) c hc)) _ c.2)
  rw [forall_zipIdx 0] at hloop
  unfold claimFrom ClaimGrounded
  rw [hitems, htext]
  rcases hloop with ⟨hall, citations, hrun, hcites⟩ | ⟨hnot, e, hrun, he⟩
  · simp only [hrun, Except.ok_bind]
    rcases claimNumeric_cases h ("$.claims[" ++ toString ord ++ "]")
      with ⟨hlegal, n, hn⟩ | ⟨hillegal, scale, hn⟩
    · rw [hn]
      exact .inl ⟨hall, hlegal, ⟨ord, text, .unsupported, citations, none, [], n, by simp⟩,
        rfl, hcites⟩
    · rw [hn]
      exact .inr (.inr ⟨hall, hillegal, scale, rfl⟩)
  · simp only [hrun]
    exact .inr (.inl ⟨hnot, e, rfl, he⟩)

theorem scalesRefused_nil (accepted : Dict String ContextItem) : ScalesRefused accepted [] := by
  intro earlier raw later h
  cases earlier <;> cases h

/-- The scales are refused unless the first claim is not grounded. -/
theorem scalesRefused_cons_iff {accepted : Dict String ContextItem} {raw : JsonValue}
    {raws : List JsonValue} :
    ScalesRefused accepted (raw :: raws)
      ↔ ¬ ClaimGrounded accepted raw ∨ ¬ IllegalScale raw ∧ ScalesRefused accepted raws := by
  constructor
  · intro h
    by_cases hground : ClaimGrounded accepted raw
    · refine .inr ⟨fun hillegal => ?_, fun earlier claim later hsplit hillegal => ?_⟩
      · obtain ⟨c, hc, hnot⟩ := h [] raw raws rfl hillegal
        rw [List.nil_append, List.mem_singleton] at hc
        exact hnot (hc ▸ hground)
      · obtain ⟨c, hc, hnot⟩ := h (raw :: earlier) claim later (by rw [hsplit]; rfl) hillegal
        rw [List.cons_append, List.mem_cons] at hc
        rcases hc with rfl | hc
        · exact absurd hground hnot
        · exact ⟨c, hc, hnot⟩
    · exact .inl hground
  · intro h earlier claim later hsplit hillegal
    cases earlier with
    | nil =>
        obtain ⟨rfl, rfl⟩ := List.cons.inj hsplit
        exact ⟨raw, by simp, h.resolve_right fun h => h.1 hillegal⟩
    | cons first earlier =>
        obtain ⟨rfl, rfl⟩ := List.cons.inj hsplit
        rcases h with hnot | ⟨-, h⟩
        · exact ⟨raw, by simp, hnot⟩
        · obtain ⟨c, hc, hnot⟩ := h earlier claim later rfl hillegal
          exact ⟨c, List.mem_cons_of_mem raw hc, hnot⟩

/-- **The loop over the claims.**  It gives grounded claims or a contract error, or else it reaches
an illegal scale. -/
theorem claims_cases (context : List ContextItem) {raws : List JsonValue}
    (h : ∀ raw ∈ raws, Conforms claimSchema raw) (k : ℕ) :
    (ScalesRefused (acceptedItems context) raws
        ∧ ((raws.zipIdx k).mapM fun c => claimFrom (acceptedItems context) c.1 c.2).Yields
          (fun claims => ∀ claim ∈ claims, ∀ c ∈ claim.citations, Cites context c)
          GenerationError.IsContract)
      ∨ (¬ ScalesRefused (acceptedItems context) raws
        ∧ ∃ scale, ((raws.zipIdx k).mapM fun c => claimFrom (acceptedItems context) c.1 c.2)
          = .error (.illegalScale scale)) := by
  induction raws generalizing k with
  | nil => exact .inl ⟨scalesRefused_nil _, Except.yields_ok (by simp)⟩
  | cons raw raws ih =>
      have hrest := ih (fun r hr => h r (List.mem_cons_of_mem raw hr)) (k + 1)
      rw [scalesRefused_cons_iff, List.zipIdx_cons, List.mapM_cons]
      rcases claimFrom_cases context (h raw List.mem_cons_self) k with
        ⟨hground, hlegal, claim, hclaim, hcites⟩ | ⟨hnot, e, he, hcontract⟩ | ⟨hground,
          hillegal, scale, he⟩
      · simp only [hclaim, hground, not_true_eq_false, hlegal, not_false_eq_true, true_and,
        false_or, Except.ok_bind]
        rcases hrest with ⟨hrefused, hrun⟩ | ⟨hreached, scale, hrun⟩
        · refine .inl ⟨hrefused, hrun.bind fun claims _ hclaims => Except.yields_ok ?_⟩
          exact List.forall_mem_cons.mpr ⟨hcites, hclaims⟩
        · rw [hrun]
          exact .inr ⟨hreached, scale, rfl⟩
      · rw [he]
        exact .inl ⟨.inl hnot, Except.yields_error hcontract⟩
      · rw [he]
        refine .inr ⟨?_, scale, rfl⟩
        exact fun hor => hor.elim (fun hnot => hnot hground) fun h => h.1 hillegal

/-- Claims whose citations stand in the context pass the integrity check. -/
theorem verifyClaims_ne_integrity {claims : List GeneratedClaim}
    (h : ∀ claim ∈ claims, ∀ c ∈ claim.citations, Cites context c) (ctx : Decimal.Context)
    (quotients : Quotients)
    (code message : String) :
    verifyClaims ctx quotients claims context ≠ .error (.integrity code message) := by
  intro herror
  obtain ⟨claim, hclaim, herror⟩ := Except.mapM_eq_error herror
  rw [verifyClaim, Except.bind_eq_error_iff] at herror
  rcases herror with herror | ⟨edges, -, herror⟩
  · obtain ⟨citation, hcitation, herror⟩ := Except.mapM_eq_error herror
    obtain ⟨item, hitem, hspan, -⟩ := h claim hclaim citation hcitation
    have hok : assertCitationIntegrity citation (acceptedItems context) = .ok item := by
      simp only [assertCitationIntegrity, hitem, hspan, ne_eq, not_true_eq_false, if_false]
    rw [verifyCitation, hok, Except.ok_bind, Except.bind_eq_error_iff] at herror
    rcases herror with herror | ⟨edge, -, herror⟩
    · cases hverify : verify ctx quotients claim.text item claim.numeric with
      | ok edge =>
          rw [hverify] at herror
          cases herror
      | error signal =>
          rw [hverify] at herror
          cases herror
    · cases herror
  · cases herror

end Loops

/-! ## The whole output -/

/-- An output that conforms is accepted. -/
theorem validateClaimsOutput_of_conforms {parsed : JsonValue} (h : Conforms outputSchema parsed) :
    validateClaimsOutput parsed = .ok () := by
  rw [validateClaimsOutput, (errors_eq_nil_iff outputSchema "$" parsed).mpr h]

/-- An output that does not conform is refused by a contract error. -/
theorem validateClaimsOutput_of_not_conforms {parsed : JsonValue}
    (h : ¬ Conforms outputSchema parsed) :
    ∃ e, validateClaimsOutput parsed = .error e ∧ e.IsContract := by
  unfold validateClaimsOutput
  cases herrors : errors outputSchema "$" parsed with
  | nil => exact absurd ((errors_eq_nil_iff outputSchema "$" parsed).mp herrors) h
  | cons first rest => exact ⟨_, rfl, _, _, rfl⟩

/-- An output that breaks the schema is refused. -/
theorem claimsFrom_of_not_conforms {parsed : JsonValue} (h : ¬ Conforms outputSchema parsed)
    (context : List ContextItem) : ∃ e, claimsFrom parsed context = .error e ∧ e.IsContract := by
  obtain ⟨e, he, hcontract⟩ := validateClaimsOutput_of_not_conforms h
  unfold claimsFrom
  split
  · exact ⟨_, rfl, _, _, rfl⟩
  · rw [he]
    exact ⟨e, rfl, hcontract⟩

/-- An abstention has no claims. -/
theorem claimsFrom_of_abstain {members inner : List (String × JsonValue)}
    (h : Conforms outputSchema (.obj members))
    (habstain : member? (.obj members) "abstain" = some (.obj inner)) (context : List ContextItem) :
    ∃ reason, claimsFrom (.obj members) context = .ok ([], some reason) := by
  simp only [claimsFrom, validateClaimsOutput_of_conforms h, habstain, Except.ok_bind]
  split
  · exact ⟨_, rfl⟩
  · exact ⟨_, rfl⟩

/-- An output without an abstention is the loop over its claims. -/
theorem claimsFrom_of_claims {members : List (String × JsonValue)}
    (h : Conforms outputSchema (.obj members))
    (habstain : member? (.obj members) "abstain" = some .null) (context : List ContextItem) :
    claimsFrom (.obj members) context
      = ((itemsAt (.obj members) "claims").zipIdx.mapM fun c =>
        claimFrom (acceptedItems context) c.1 c.2) >>=
          fun claims => .ok (claims, none) := by
  simp only [claimsFrom, validateClaimsOutput_of_conforms h, habstain, Except.ok_bind]
  rfl

/-- **The output of a model is grounded or refused** exactly when no illegal scale is reached: the
output breaks the schema, or abstains, or has a citation that is not grounded in or before every
claim with such a scale. -/
theorem output_grounded_or_refused_iff (parsed : JsonValue) (context : List ContextItem) :
    GroundedOrRefused parsed context
      ↔ (Conforms outputSchema parsed → member? parsed "abstain" = some .null →
          ScalesRefused (acceptedItems context) (itemsAt parsed "claims")) := by
  by_cases h : Conforms outputSchema parsed
  · obtain ⟨members, rfl⟩ := h.isObj rfl
    obtain ⟨abstain, habstain, hconforms⟩ := h.member "abstain" (s := abstainSchema) (by decide) rfl
    rcases hconforms.isObj_or_null rfl with ⟨inner, rfl⟩ | rfl
    · obtain ⟨reason, hrun⟩ := claimsFrom_of_abstain h habstain context
      refine iff_of_true ?_ fun _ hnull => ?_
      · refine Except.yields_of_eq hrun ⟨fun _ => rfl, by
        simp, fun ctx quotients code message => ?_⟩
        exact verifyClaims_ne_integrity (by simp) ctx quotients code message
      · cases habstain.symm.trans hnull
    · obtain ⟨claims, hclaims, hschema⟩ := h.member "claims" (s := claimsSchema) (by decide) rfl
      obtain ⟨raws, rfl⟩ := hschema.isArr rfl
      have hraws : itemsAt (.obj members) "claims" = raws := by
        simp only [itemsAt, hclaims]
      rw [GroundedOrRefused, claimsFrom_of_claims h habstain, hraws]
      simp only [h, habstain, true_imp_iff]
      rcases claims_cases context (fun raw hraw => hschema.item rfl hraw) 0 with
        ⟨hrefused, hrun⟩ | ⟨hreached, scale, hrun⟩
      · refine iff_of_true (hrun.bind fun claims _ hclaims => Except.yields_ok ⟨nofun, ?_, ?_⟩)
          hrefused
        · exact fun claim hclaim c hc => (hclaims claim hclaim c hc).citesContext
        · exact verifyClaims_ne_integrity hclaims
      · refine iff_of_false ?_ hreached
        rw [hrun]
        rintro ⟨code, message, hcontract⟩
        cases hcontract
  · obtain ⟨e, he, hcontract⟩ := claimsFrom_of_not_conforms h context
    refine iff_of_true ?_ fun hconforms => absurd hconforms h
    rw [GroundedOrRefused, he]
    exact hcontract

/-- Only what is not a contract error leaves the stage of the pipeline. -/
theorem generationStage_eq_error_iff {result : ModelResult} {context : List ContextItem}
    {e : GenerationError} :
    generationStage result context = .error e
      ↔ result.refused = false ∧ claimsFrom result.parsed context = .error e ∧ ¬ e.IsContract := by
  unfold generationStage generate
  cases result.refused with
  | true => simp
  | false =>
      simp only [Bool.false_eq_true, if_false, true_and]
      cases claimsFrom result.parsed context with
      | ok r => simp
      | error e' =>
          cases e' with
          | contract code message =>
              simp only [reduceCtorEq, false_iff, not_and, not_not, Except.error.injEq]
              rintro rfl
              exact ⟨code, message, rfl⟩
          | illegalScale scale =>
              simp only [Except.error.injEq, iff_self_and]
              rintro rfl ⟨code, message, hcontract⟩
              cases hcontract
          | shape key =>
              simp only [Except.error.injEq, iff_self_and]
              rintro rfl ⟨code, message, hcontract⟩
              cases hcontract

/-- A result whose output is grounded or refused goes through the pipeline. -/
theorem generationStage_of_groundedOrRefused {result : ModelResult} {context : List ContextItem}
    (h : GroundedOrRefused result.parsed context) :
    ∃ r, generationStage result context = .ok r := by
  cases hstage : generationStage result context with
  | ok r => exact ⟨r, rfl⟩
  | error e =>
      obtain ⟨-, hrun, hnot⟩ := generationStage_eq_error_iff.mp hstage
      rw [GroundedOrRefused, hrun] at h
      exact absurd h hnot

/-- One claim that quotes its item, with a scale of one. -/
def tensOutput : JsonValue :=
  .obj [("claims", .arr [.obj [("text", .str "Revenue was 120 dollars."),
      ("citations", .arr [.obj [("item_id", .str "f1"), ("quote", .str "Revenue was 120")]]),
      ("numeric",
      .obj [("value", .str "12"), ("unit", .str "USD"), ("period", .null), ("scale", .int 1)])]]),
    ("abstain", .null)]

def tensItem : ContextItem := ⟨"f1", "passage", "Revenue was 120 dollars.", "s1", "d1", none, none⟩

theorem tensOutput_raises_illegalScale :
    claimsFrom tensOutput [tensItem] = .error (.illegalScale 1) ∧
    ¬ GroundedOrRefused tensOutput [tensItem] := by
  have hrun : claimsFrom tensOutput [tensItem] = .error (.illegalScale 1) := by
    rfl
  refine ⟨hrun, ?_⟩
  rw [GroundedOrRefused, hrun]
  rintro ⟨code, message, hcontract⟩
  cases hcontract

end Retrieval

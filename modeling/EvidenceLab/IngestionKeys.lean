/-
# The unique keys of a version

The identifiers of a version's rows are hashes of names, and a name holds the version's identifier
and the place of the row (`sectionName_inj`, `spanName_inj`, `factName_inj`).  Where the hashes keep
those names apart, the rows of a version share no key with one another (`nodup_keys`), and a key
that two versions share makes them one (`VersionRow.eq_of_shared`).  Both channels place their rows
so (`filingRelease_placed`, `companyFactsRelease_placed`).
-/
import EvidenceLab.FilingRows
import EvidenceLab.IngestionReleases
import EvidenceLab.JsonText

/-! ## Facts -/

namespace Xbrl

/-- What the identifier of a fact is made of. -/
def factName (versionId : String) (ordinal : ℕ) (key : List Char) : String :=
  versionId ++ "|fact|" ++ toString ordinal ++ "|" ++ String.ofList key

/-- The facts of a version are numbered in their order, and a key has one canonical fact. -/
structure Numbered (uuid5 : String → String) (versionId : String) (facts : List NormalizedFact) :
    Prop where
  ids : ∀ n f, facts[n]? = some f → f.id = uuid5 (factName versionId n f.factKey)
  version : ∀ f ∈ facts, f.documentVersionId = versionId
  canonical : ((facts.filter fun f => f.duplicateOf.isNone).map NormalizedFact.factKey).Nodup

section Normalizer

variable {uuid5 : String → String} {entityId versionId : String} {wording : Wording}
  {prior : Dict (List Char) PriorFact}

/-- The canonical facts are those that the ledger finds by their keys. -/
structure LedgerOk (uuid5 : String → String) (versionId : String) (st : Ledger) : Prop where
  numbered : Numbered uuid5 versionId st.out
  known : ∀ f ∈ st.out, f.duplicateOf = none → (st.canonical.get? f.factKey).isSome = true

/-- A record is numbered by those before it. -/
theorem ids_append {facts : List NormalizedFact} {f : NormalizedFact}
    (h : ∀ n f, facts[n]? = some f → f.id = uuid5 (factName versionId n f.factKey))
    (hf : f.id = uuid5 (factName versionId facts.length f.factKey)) :
    ∀ n g, (facts ++ [f])[n]? = some g → g.id = uuid5 (factName versionId n g.factKey) := by
  intro n g hg
  rcases Nat.lt_or_ge n facts.length with hlt | hge
  · rw [List.getElem?_append_left hlt] at hg
    exact h n g hg
  · rw [List.getElem?_append_right hge] at hg
    have hlt := (List.getElem?_eq_some_iff.mp hg).1
    have hzero : n - facts.length = 0 := by
      rw [List.length_singleton] at hlt
      omega
    rw [hzero, List.getElem?_cons_zero, Option.some.injEq] at hg
    obtain rfl : n = facts.length := by omega
    exact hg ▸ hf

/-- **A round of the loop** numbers its record. -/
theorem ledgerOk_record {st st' : Ledger} {o : Occurrence} (hst : LedgerOk uuid5 versionId st)
    (h : record uuid5 entityId versionId wording prior st o = .ok st') :
    LedgerOk uuid5 versionId st' := by
  obtain ⟨hids, hversion, hcanonical⟩ := hst.numbered
  obtain ⟨hnone, rfl⟩ | ⟨c, hc, -, rfl⟩ := record_eq_ok h
  · refine ⟨⟨ids_append hids rfl, ?_, ?_⟩, fun f hf hnil => ?_⟩
    · exact List.forall_mem_append.mpr ⟨hversion, List.forall_mem_singleton.mpr rfl⟩
    · rw [List.filter_append, List.map_append]
      refine List.nodup_append.mpr ⟨hcanonical, List.nodup_singleton _, ?_⟩
      rintro a ha b hb rfl
      obtain ⟨f, hf, rfl⟩ := List.mem_map.mp ha
      obtain ⟨hf, hnil⟩ := List.mem_filter.mp hf
      have hknown := hst.known f hf (Option.isNone_iff_eq_none.mp hnil)
      have hkey : f.factKey = o.key := List.mem_singleton.mp hb
      rw [hkey, hnone] at hknown
      cases hknown
    · rw [Dict.get?_set]
      split_ifs with hkey
      · rfl
      · rcases List.mem_append.mp hf with hf | hf
        · exact hst.known f hf hnil
        · rw [List.mem_singleton.mp hf] at hkey
          exact absurd rfl hkey
  · refine ⟨⟨ids_append hids rfl, ?_, ?_⟩, fun f hf hnil => ?_⟩
    · exact List.forall_mem_append.mpr ⟨hversion, List.forall_mem_singleton.mpr rfl⟩
    · rw [List.filter_append]
      exact (List.append_nil _).symm ▸ hcanonical
    · rcases List.mem_append.mp hf with hf | hf
      · exact hst.known f hf hnil
      · rw [List.mem_singleton.mp hf] at hnil
        cases hnil

theorem ledgerOk_nil : LedgerOk uuid5 versionId {} where
  numbered := ⟨fun n f h => by simp at h, fun f hf => (List.not_mem_nil hf).elim, List.nodup_nil⟩
  known f hf := (List.not_mem_nil hf).elim

/-- **The facts of a filing** are numbered in their order. -/
theorem numbered_normalizeFacts {repr : String → String} {parsed : Filing.ParsedDocument}
    {facts : List NormalizedFact}
    (h : normalizeFacts uuid5 entityId versionId repr prior parsed = .ok facts) :
    Numbered uuid5 versionId facts := by
  obtain ⟨st, hst, h⟩ := Except.bind_eq_ok_iff.mp h
  obtain rfl := Except.ok.inj h
  refine (Except.foldlM_ok_run (fun _ st => LedgerOk uuid5 versionId st) ?_
    ledgerOk_nil hst).numbered
  intro _ fact _ st st' _ hinv hround
  obtain ⟨o, -, hrecord⟩ := Except.bind_eq_ok_iff.mp hround
  exact ledgerOk_record hinv hrecord

/-- **The facts of a snapshot** are numbered in their order. -/
theorem numbered_normalizeCompanyFacts {observations : List CompanyFactsObservation}
    {facts : List NormalizedFact}
    (h : normalizeCompanyFacts uuid5 entityId versionId observations = .ok facts) :
    Numbered uuid5 versionId facts := by
  obtain ⟨st, hst, h⟩ := Except.bind_eq_ok_iff.mp h
  obtain rfl := Except.ok.inj h
  exact (Except.foldlM_ok_run (fun _ st => LedgerOk uuid5 versionId st)
    (fun _ _ _ _ _ _ hinv hround => ledgerOk_record hinv hround) ledgerOk_nil hst).numbered

end Normalizer

end Xbrl

/-! ## Snapshots -/

namespace CompanyFacts

/-- **The rows of a snapshot have places of their own.** -/
theorem placed_of_parse {S : Ingestion.Tools} {py : Interpreter} {seed contentHash : String}
    {raw : List UInt8} {parsed : ParsedCompanyFacts}
    (h : parseCompanyFacts S py seed contentHash raw = .ok parsed) :
    Filing.Placed S.uuid5 seed parsed.sections parsed.spans [] := by
  obtain ⟨payload, -, -, cs, -, hspans, -, hok, hpair⟩ := citations_of_parse h
  obtain ⟨horders, -, hsections⟩ := sections_of_parse h
  refine ⟨horders ▸ List.nodup_range, ?_, List.nodup_nil, fun s hs => (hsections s hs).2.2,
    fun span hspan => ?_, fun t ht => (List.not_mem_nil ht).elim⟩
  · rw [hspans, List.map_map, List.Nodup, List.pairwise_map]
    refine hpair.imp_of_mem ?_
    intro c d hc hd hcd heq
    have hstart : c.span.startChar = d.span.startChar := congrArg Prod.fst heq
    have hc' := (hok c hc).1.nonempty
    omega
  · obtain ⟨c, hc, rfl⟩ := List.mem_map.mp (hspans ▸ hspan)
    exact (hok c hc).1.id

end CompanyFacts

/-! ## Names -/

/-- The last bar of a list. -/
theorem append_bar_inj {a b d e : List Char} (hd : '|' ∉ d) (he : '|' ∉ e)
    (h : a ++ '|' :: d = b ++ '|' :: e) : a = b ∧ d = e := by
  rcases List.append_eq_append_iff.mp h with ⟨c, rfl, hc⟩ | ⟨c, rfl, hc⟩
  all_goals
    cases c with
    | nil => simp_all
    | cons x c =>
      rw [List.cons_append, List.cons.injEq] at hc
      simp_all

/-- The first bar of a list. -/
theorem bar_append_inj {a b d e : List Char} (ha : '|' ∉ a) (hb : '|' ∉ b)
    (h : a ++ '|' :: d = b ++ '|' :: e) : a = b ∧ d = e := by
  have hrev := congrArg List.reverse h
  simp only [List.reverse_append, List.reverse_cons, List.append_assoc, List.singleton_append]
    at hrev
  obtain ⟨hde, hab⟩ := append_bar_inj (by simpa using ha) (by simpa using hb) hrev
  exact ⟨List.reverse_injective hab, List.reverse_injective hde⟩

theorem toList_toString (n : ℕ) : (toString n).toList = Nat.toDigits 10 n := by
  show (Nat.repr n).toList = _
  rw [Nat.repr_eq_ofList_toDigits, String.toList_ofList]

/-- A numeral has no bar. -/
theorem bar_not_mem_toDigits (n : ℕ) : '|' ∉ Nat.toDigits 10 n := fun hmem =>
  absurd (Json.isDigit_toDigits n _ hmem) (by decide)

/-- A number is known by its numeral. -/
theorem toDigits_inj {n m : ℕ} (h : Nat.toDigits 10 n = Nat.toDigits 10 m) : n = m := by
  rw [← Nat.ofDigitChars_ten_toDigits (n := n), h, Nat.ofDigitChars_ten_toDigits]

/-- A name ends with a number after a bar. -/
theorem append_toString_inj {a b : String} {n m : ℕ}
    (h : a ++ "|" ++ toString n = b ++ "|" ++ toString m) : a = b ∧ n = m := by
  have hchars : a.toList ++ '|' :: Nat.toDigits 10 n = b.toList ++ '|' :: Nat.toDigits 10 m := by
    have hlist := congrArg String.toList h
    rw [String.toList_append, String.toList_append, String.toList_append, String.toList_append,
      toList_toString, toList_toString, List.append_assoc, List.append_assoc] at hlist
    exact hlist
  obtain ⟨hab, hnm⟩ := append_bar_inj (bar_not_mem_toDigits n) (bar_not_mem_toDigits m) hchars
  exact ⟨String.toList_inj.mp hab, toDigits_inj hnm⟩

/-- The names of a kind. -/
theorem name_inj (kind : String) {v w : String} {n m : ℕ}
    (h : v ++ (kind ++ "|") ++ toString n = w ++ (kind ++ "|") ++ toString m) : v = w ∧ n = m := by
  rw [← String.append_assoc, ← String.append_assoc] at h
  obtain ⟨hvw, hnm⟩ := append_toString_inj h
  exact ⟨(String.append_left_inj _).mp hvw, hnm⟩

/-- The name of a section tells its version and its place. -/
theorem sectionName_inj {v w : String} {n m : ℕ}
    (h : Filing.sectionName v n = Filing.sectionName w m) : v = w ∧ n = m :=
  name_inj "|section" h

/-- The name of a table tells its version and its place. -/
theorem tableName_inj {v w : String} {n m : ℕ}
    (h : Filing.tableName v n = Filing.tableName w m) : v = w ∧ n = m :=
  name_inj "|table" h

/-- The name of a span tells its version and its range. -/
theorem spanName_inj {v w : String} {a b n m : ℕ}
    (h : Filing.spanName v a n = Filing.spanName w b m) : v = w ∧ (a, n) = (b, m) := by
  obtain ⟨hfirst, hnm⟩ := append_toString_inj h
  obtain ⟨hvw, hab⟩ := name_inj "|span" hfirst
  exact ⟨hvw, by rw [hab, hnm]⟩

/-- A version's identifier has no bar, and ends at the first one. -/
theorem factName_inj {v w : String} {n m : ℕ} {key key' : List Char} (hv : '|' ∉ v.toList)
    (hw : '|' ∉ w.toList) (h : Xbrl.factName v n key = Xbrl.factName w m key') : v = w ∧ n = m := by
  have hchars : v.toList ++ '|' :: ("fact|".toList ++ (Nat.toDigits 10 n ++ '|' :: key))
      = w.toList ++ '|' :: ("fact|".toList ++ (Nat.toDigits 10 m ++ '|' :: key')) := by
    have hlist := congrArg String.toList h
    simp only [Xbrl.factName, String.toList_append, toList_toString, String.toList_ofList,
      List.append_assoc] at hlist
    exact hlist
  obtain ⟨hvw, hrest⟩ := bar_append_inj hv hw hchars
  have hdigits := List.append_cancel_left hrest
  obtain ⟨hnm, -⟩ := bar_append_inj (bar_not_mem_toDigits n) (bar_not_mem_toDigits m) hdigits
  exact ⟨String.toList_inj.mp hvw, toDigits_inj hnm⟩

/-! ## Keys -/

namespace Ingestion

open Xbrl (NormalizedFact)

/-- The rows of a version are placed, and its facts are numbered. -/
structure Derived.Placed (uuid5 : String → String) (versionId : String) (derived : Derived) :
    Prop where
  rows : Filing.Placed uuid5 versionId derived.sections derived.spans derived.tables
  facts : Xbrl.Numbered uuid5 versionId derived.facts

/-- A release places the rows that it derives. -/
def Release.Placed (S : Tools) (release : Release) : Prop :=
  ∀ entityId versionId contentHash raw prior derived,
    release.derive entityId versionId contentHash raw prior = .ok derived →
      derived.Placed S.uuid5 versionId

/-- **A filing** places its rows. -/
theorem filingRelease_placed (S : Tools) (py : CompanyFacts.Interpreter)
    (html : String → List Filing.Event) : (filingRelease S py html).Placed S := by
  intro entityId versionId contentHash raw prior derived h
  obtain ⟨text, -, h⟩ := Except.bind_eq_ok_iff.mp h
  obtain ⟨parsed, hparsed, h⟩ := Except.bind_eq_ok_iff.mp h
  obtain ⟨facts, hfacts, h⟩ := Except.bind_eq_ok_iff.mp h
  obtain rfl := Except.ok.inj h
  exact ⟨Filing.placed_of_parseFiling (mapError_eq_ok hparsed),
    Xbrl.numbered_normalizeFacts (mapError_eq_ok hfacts)⟩

/-- **A snapshot** places its rows. -/
theorem companyFactsRelease_placed (S : Tools) (py : CompanyFacts.Interpreter) :
    (companyFactsRelease S py).Placed S := by
  intro entityId versionId contentHash raw prior derived h
  obtain ⟨parsed, hparsed, h⟩ := Except.bind_eq_ok_iff.mp h
  obtain ⟨facts, hfacts, h⟩ := Except.bind_eq_ok_iff.mp h
  obtain rfl := Except.ok.inj h
  exact ⟨CompanyFacts.placed_of_parse hparsed,
    Xbrl.numbered_normalizeCompanyFacts (mapError_eq_ok hfacts)⟩

/-- What the identifiers of a version's rows are made of. -/
def Derived.names (versionId : String) (derived : Derived) : List String :=
  derived.sections.map (fun s => Filing.sectionName versionId s.order)
    ++ derived.spans.map (fun s => Filing.spanName versionId s.startChar s.endChar)
    ++ derived.tables.map (fun t => Filing.tableName versionId t.order)
    ++ derived.facts.zipIdx.map fun f => Xbrl.factName versionId f.2 f.1.factKey

/-- The hash keeps apart the names of two lists. -/
def Apart (uuid5 : String → String) (names names' : List String) : Prop :=
  ∀ x ∈ names, ∀ y ∈ names', uuid5 x = uuid5 y → x = y

section Keys

variable {uuid5 : String → String} {v w : String} {derived derived' : Derived} {k : VersionKey}

/-- The names of a version have those of its sections. -/
theorem sectionName_mem {s : Filing.Section} (hs : s ∈ derived.sections) :
    Filing.sectionName v s.order ∈ derived.names v := by
  simp only [Derived.names, List.mem_append]
  exact .inl (.inl (.inl (List.mem_map_of_mem hs)))

/-- The names of a version have those of its spans. -/
theorem spanName_mem {s : Filing.SourceSpan} (hs : s ∈ derived.spans) :
    Filing.spanName v s.startChar s.endChar ∈ derived.names v := by
  simp only [Derived.names, List.mem_append]
  exact .inl (.inl (.inr (List.mem_map_of_mem hs)))

/-- The names of a version have those of its tables. -/
theorem tableName_mem {t : Filing.ExtractedTable} (ht : t ∈ derived.tables) :
    Filing.tableName v t.order ∈ derived.names v := by
  simp only [Derived.names, List.mem_append]
  exact .inl (.inr (List.mem_map_of_mem ht))

/-- The names of a version have those of its facts. -/
theorem factName_mem {f : NormalizedFact} {n : ℕ} (hf : derived.facts[n]? = some f) :
    Xbrl.factName v n f.factKey ∈ derived.names v := by
  simp only [Derived.names, List.mem_append]
  exact .inr (List.mem_map.mpr ⟨(f, n), List.mk_mem_zipIdx_iff_getElem?.mpr hf, rfl⟩)

/-- A key of a row holds the version's identifier, or the hash of a name that does. -/
inductive RowKey (uuid5 : String → String) (names : List String) (v : String) : VersionKey → Prop
  | sectionId (n : ℕ) (h : Filing.sectionName v n ∈ names) :
      RowKey uuid5 names v (.sectionId (uuid5 (Filing.sectionName v n)))
  | sectionOrder (n : ℕ) : RowKey uuid5 names v (.sectionOrder v n)
  | spanId (start stop : ℕ) (h : Filing.spanName v start stop ∈ names) :
      RowKey uuid5 names v (.spanId (uuid5 (Filing.spanName v start stop)))
  | tableId (n : ℕ) (h : Filing.tableName v n ∈ names) :
      RowKey uuid5 names v (.tableId (uuid5 (Filing.tableName v n)))
  | tableOrder (n : ℕ) : RowKey uuid5 names v (.tableOrder v n)
  | factId (n : ℕ) (key : List Char) (h : Xbrl.factName v n key ∈ names) :
      RowKey uuid5 names v (.factId (uuid5 (Xbrl.factName v n key)))
  | canonicalFact (key : List Char) : RowKey uuid5 names v (.canonicalFact v key)

/-- A key of placed rows is the hash of one of their names, or a place in their version. -/
theorem rowKey_of_mem (hd : derived.Placed uuid5 v) (hk : k ∈ derived.keys v) :
    RowKey uuid5 (derived.names v) v k := by
  simp only [Derived.keys, List.mem_append, or_assoc] at hk
  rcases hk with hk | hk | hk | hk
  · obtain ⟨s, hs, hk⟩ := List.mem_flatMap.mp hk
    rcases List.mem_cons.mp hk with rfl | hk
    · rw [hd.rows.sectionIds s hs]
      exact .sectionId s.order (sectionName_mem hs)
    · obtain rfl := List.mem_singleton.mp hk
      exact .sectionOrder s.order
  · obtain ⟨s, hs, rfl⟩ := List.mem_map.mp hk
    rw [hd.rows.spanIds s hs]
    exact .spanId _ _ (spanName_mem hs)
  · obtain ⟨t, ht, hk⟩ := List.mem_flatMap.mp hk
    rcases List.mem_cons.mp hk with rfl | hk
    · rw [hd.rows.tableIds t ht]
      exact .tableId t.order (tableName_mem ht)
    · obtain rfl := List.mem_singleton.mp hk
      exact .tableOrder t.order
  · obtain ⟨f, hf, hk⟩ := List.mem_flatMap.mp hk
    rcases List.mem_cons.mp hk with rfl | hk
    · obtain ⟨n, hn⟩ := List.mem_iff_getElem?.mp hf
      rw [hd.facts.ids n f hn]
      exact .factId n _ (factName_mem hn)
    · split_ifs at hk
      · obtain rfl := List.mem_singleton.mp hk
        rw [hd.facts.version f hf]
        exact .canonicalFact _
      · cases hk

/-- **A key of two versions' rows** makes them one version. -/
theorem RowKey.version_eq {names names' : List String} (h : RowKey uuid5 names v k)
    (h' : RowKey uuid5 names' w k) (hnames : Apart uuid5 names names') (hv : '|' ∉ v.toList)
    (hw : '|' ∉ w.toList) : v = w := by
  cases h with
  | sectionId n hn =>
    generalize hid : uuid5 (Filing.sectionName v n) = id at h'
    cases h' with
    | sectionId m hm => exact (sectionName_inj (hnames _ hn _ hm hid)).1
  | sectionOrder n =>
    cases h'
    rfl
  | spanId start stop hn =>
    generalize hid : uuid5 (Filing.spanName v start stop) = id at h'
    cases h' with
    | spanId start' stop' hm => exact (spanName_inj (hnames _ hn _ hm hid)).1
  | tableId n hn =>
    generalize hid : uuid5 (Filing.tableName v n) = id at h'
    cases h' with
    | tableId m hm => exact (tableName_inj (hnames _ hn _ hm hid)).1
  | tableOrder n =>
    cases h'
    rfl
  | factId n key hn =>
    generalize hid : uuid5 (Xbrl.factName v n key) = id at h'
    cases h' with
    | factId m key' hm => exact (factName_inj hv hw (hnames _ hn _ hm hid)).1
  | canonicalFact key =>
    cases h'
    rfl

/-- Rows with an identifier and a place, all of them apart. -/
theorem nodup_placed {α : Type} {l : List α} (id : α → String) (place : α → ℕ)
    {idKey : String → VersionKey} {placeKey : ℕ → VersionKey} (hid : idKey.Injective)
    (hplace : placeKey.Injective) (hne : ∀ a n, idKey a ≠ placeKey n)
    (hids : ∀ a ∈ l, ∀ b ∈ l, id a = id b → place a = place b) (hl : (l.map place).Nodup) :
    (l.flatMap fun a => [idKey (id a), placeKey (place a)]).Nodup := by
  refine List.nodup_flatMap.mpr ⟨fun a _ => by simp [hne], ?_⟩
  refine (List.pairwise_map.mp hl).imp_of_mem ?_
  intro a b ha hb hab k hka hkb
  rcases List.mem_pair.mp hka with rfl | rfl
  · rcases List.mem_pair.mp hkb with heq | heq
    · exact hab (hids a ha b hb (hid heq))
    · exact hne _ _ heq
  · rcases List.mem_pair.mp hkb with heq | heq
    · exact hne _ _ heq.symm
    · exact hab (hplace heq)

/-- The facts of a version have keys of their own. -/
theorem nodup_factKeys {facts : List NormalizedFact} (h : Xbrl.Numbered uuid5 v facts)
    (hids : facts.Pairwise fun a b => a.id ≠ b.id) :
    (facts.flatMap fun f => VersionKey.factId f.id
      :: if f.duplicateOf.isNone then [.canonicalFact f.documentVersionId f.factKey]
      else []).Nodup := by
  have hcanonical : facts.Pairwise fun a b =>
      a.duplicateOf.isNone = true → b.duplicateOf.isNone = true → a.factKey ≠ b.factKey :=
    List.pairwise_filter.mp (List.pairwise_map.mp h.canonical)
  refine List.nodup_flatMap.mpr ⟨fun f _ => ?_, (hids.and hcanonical).imp ?_⟩
  · split_ifs <;> simp
  · rintro a b ⟨hid, hkey⟩ k hka hkb
    rcases List.mem_cons.mp hka with rfl | hka
    · rcases List.mem_cons.mp hkb with heq | hkb
      · exact hid (VersionKey.factId.inj heq)
      · split_ifs at hkb
        · cases List.mem_singleton.mp hkb
        · cases hkb
    · split_ifs at hka with ha
      · obtain rfl := List.mem_singleton.mp hka
        rcases List.mem_cons.mp hkb with heq | hkb
        · cases heq
        · split_ifs at hkb with hb
          · exact hkey ha hb (VersionKey.canonicalFact.inj (List.mem_singleton.mp hkb)).2
          · cases hkb
      · cases hka

/-- **The rows of a version share no key.** -/
theorem nodup_keys (hd : derived.Placed uuid5 v)
    (hnames : Apart uuid5 (derived.names v) (derived.names v)) (hv : '|' ∉ v.toList) :
    (derived.keys v).Nodup := by
  obtain ⟨⟨hsections, hspans, htables, hsectionIds, hspanIds, htableIds⟩, hfacts⟩ := hd
  have hsectionKeys : (derived.sections.flatMap fun s =>
      [VersionKey.sectionId s.id, VersionKey.sectionOrder v s.order]).Nodup := by
    refine nodup_placed Filing.Section.id Filing.Section.order (fun _ _ => VersionKey.sectionId.inj)
      (fun _ _ h => (VersionKey.sectionOrder.inj h).2) (fun _ _ => VersionKey.noConfusion) ?_
      hsections
    intro a ha b hb heq
    rw [hsectionIds a ha, hsectionIds b hb] at heq
    exact (sectionName_inj (hnames _ (sectionName_mem ha) _ (sectionName_mem hb) heq)).2
  have htableKeys : (derived.tables.flatMap fun t =>
      [VersionKey.tableId t.id, VersionKey.tableOrder v t.order]).Nodup := by
    refine nodup_placed Filing.ExtractedTable.id Filing.ExtractedTable.order
      (fun _ _ => VersionKey.tableId.inj) (fun _ _ h => (VersionKey.tableOrder.inj h).2)
      (fun _ _ => VersionKey.noConfusion) ?_ htables
    intro a ha b hb heq
    rw [htableIds a ha, htableIds b hb] at heq
    exact (tableName_inj (hnames _ (tableName_mem ha) _ (tableName_mem hb) heq)).2
  have hspanKeys : (derived.spans.map fun s => VersionKey.spanId s.id).Nodup := by
    rw [List.Nodup, List.pairwise_map]
    refine (List.pairwise_map.mp hspans).imp_of_mem ?_
    intro a b ha hb hab heq
    have hids := VersionKey.spanId.inj heq
    rw [hspanIds a ha, hspanIds b hb] at hids
    exact hab (spanName_inj (hnames _ (spanName_mem ha) _ (spanName_mem hb) hids)).2
  have hfactIds : derived.facts.Pairwise fun a b => a.id ≠ b.id := by
    rw [List.pairwise_iff_getElem]
    intro i j hi hj hij heq
    have hi' := List.getElem?_eq_getElem hi
    have hj' := List.getElem?_eq_getElem hj
    rw [hfacts.ids i _ hi', hfacts.ids j _ hj'] at heq
    exact hij.ne (factName_inj hv hv (hnames _ (factName_mem hi') _ (factName_mem hj') heq)).2
  -- keys of different tables differ
  refine List.nodup_append.mpr ⟨List.nodup_append.mpr ⟨List.nodup_append.mpr
    ⟨hsectionKeys, hspanKeys, ?_⟩, htableKeys, ?_⟩, nodup_factKeys hfacts hfactIds, ?_⟩
  all_goals
    rintro a ha b hb rfl
    simp only [List.mem_append, List.mem_flatMap, List.mem_map, List.mem_cons] at ha hb
    grind

/-- The keys of a version apart from those of its rows. -/
theorem mem_keys_iff {u : VersionRow} : k ∈ u.keys ↔ k = .id u.id
    ∨ k = .derivation u.documentId u.parserVersion u.normalizerVersion
    ∨ k ∈ u.derived.keys u.id := by
  rw [VersionRow.keys, List.mem_cons, List.mem_cons]

/-- **A version shares no key with itself** where the hash keeps its names apart. -/
theorem VersionRow.nodup_keys {u : VersionRow} (hu : u.derived.Placed uuid5 u.id)
    (hnames : Apart uuid5 (u.derived.names u.id) (u.derived.names u.id))
    (hbar : '|' ∉ u.id.toList) : u.keys.Nodup := by
  have hrow : ∀ k ∈ u.derived.keys u.id, RowKey uuid5 (u.derived.names u.id) u.id k :=
    fun k hk => rowKey_of_mem hu hk
  refine List.nodup_cons.mpr ⟨fun h => ?_, List.nodup_cons.mpr ⟨fun h => ?_,
    Ingestion.nodup_keys hu hnames hbar⟩⟩
  · rcases List.mem_cons.mp h with h | h
    · cases h
    · cases hrow _ h
  · cases hrow _ h

/-- **Versions that share a key** have one identifier, or come from one document by one release. -/
theorem VersionRow.eq_of_shared {u u' : VersionRow} (hu : u.derived.Placed uuid5 u.id)
    (hu' : u'.derived.Placed uuid5 u'.id)
    (hnames : Apart uuid5 (u.derived.names u.id) (u'.derived.names u'.id))
    (hbar : '|' ∉ u.id.toList) (hbar' : '|' ∉ u'.id.toList) (hk : k ∈ u.keys) (hk' : k ∈ u'.keys) :
    u.id = u'.id ∨ (u.documentId = u'.documentId ∧ u.parserVersion = u'.parserVersion
      ∧ u.normalizerVersion = u'.normalizerVersion) := by
  rcases mem_keys_iff.mp hk with rfl | rfl | hk
  · rcases mem_keys_iff.mp hk' with heq | heq | hk'
    · exact .inl (VersionKey.id.inj heq)
    · cases heq
    · cases rowKey_of_mem hu' hk'
  · rcases mem_keys_iff.mp hk' with heq | heq | hk'
    · cases heq
    · exact .inr (VersionKey.derivation.inj heq)
    · cases rowKey_of_mem hu' hk'
  · have hrow := rowKey_of_mem hu hk
    rcases mem_keys_iff.mp hk' with rfl | rfl | hk'
    · cases hrow
    · cases hrow
    · exact .inl (hrow.version_eq (rowKey_of_mem hu' hk') hnames hbar hbar')

end Keys

/-! ## The identifier of a version -/

section VersionId

variable {S : Tools}

/-- No part of a job key has a bar. -/
theorem bar_not_mem_of_key {j : Job} {key : String} (h : j.key S = .ok key) :
    '|' ∉ (j.contentHash S).toList ∧ '|' ∉ j.release.parserVersion.toList
      ∧ '|' ∉ j.release.normalizerVersion.toList := by
  rw [Job.key, jobKey] at h
  split at h
  · cases h
  · rename_i hnone
    rw [List.find?_eq_none] at hnone
    simp only [List.mem_cons, List.not_mem_nil, or_false, decide_eq_true_eq] at hnone
    exact ⟨hnone _ (by simp), hnone _ (by simp), hnone _ (by simp)⟩

theorem append_bar_string_inj {a b d e : String} (hd : '|' ∉ d.toList) (he : '|' ∉ e.toList)
    (h : a ++ "|" ++ d = b ++ "|" ++ e) : a = b ∧ d = e := by
  have hchars : a.toList ++ '|' :: d.toList = b.toList ++ '|' :: e.toList := by
    have hlist := congrArg String.toList h
    rw [String.toList_append, String.toList_append, String.toList_append, String.toList_append,
      List.append_assoc, List.append_assoc] at hlist
    exact hlist
  obtain ⟨hab, hde⟩ := append_bar_inj hd he hchars
  exact ⟨String.toList_inj.mp hab, String.toList_inj.mp hde⟩

/-- **What the identifier of a version says** of its job. -/
theorem versionUrl_inj {j j' : Job} {key key' : String} (hkey : j.key S = .ok key)
    (hkey' : j'.key S = .ok key') (h : j.versionUrl S = j'.versionUrl S) :
    j.documentId S = j'.documentId S ∧ j.release.parserVersion = j'.release.parserVersion
      ∧ j.release.normalizerVersion = j'.release.normalizerVersion := by
  obtain ⟨hhash, hparser, hnormalizer⟩ := bar_not_mem_of_key hkey
  obtain ⟨hhash', hparser', hnormalizer'⟩ := bar_not_mem_of_key hkey'
  obtain ⟨h₁, hn⟩ := append_bar_string_inj hnormalizer hnormalizer' h
  obtain ⟨h₂, hp⟩ := append_bar_string_inj hparser hparser' h₁
  obtain ⟨h₃, -⟩ := append_bar_string_inj hhash hhash' h₂
  exact ⟨(String.append_right_inj _).mp h₃, hp, hn⟩

end VersionId

end Ingestion

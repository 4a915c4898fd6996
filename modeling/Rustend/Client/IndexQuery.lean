import Rustend.Lib.NestedKey
import Rustend.Client.Schema
import Rustend.Client.Repository
import Mathlib.Data.List.Sort
import Mathlib.Data.Sum.Order

/-!
# Queries by an index

An index of the application holds the heads for which the type of the object and the indexed
field make a valid key, in the order of these keys.  `query_by_index` asks for a range of keys
with one object type, or for everything, and then drops the heads of other types itself.

What `serde_wasm_bindgen` cannot represent, and what the application makes of a payload, are
parameters.

## Main definitions

* `Json.toKey` — the key of a value.
* `IndexEntry.indexed` — the value under which an index holds a head.
* `IndexEntry.getAll` — what an index answers.
* `queryByIndex`, with `IndexRange` and `ObjectVersion`.

## Main results

* `getAll_pairs` — what a range of keys with one object type selects.
* `queryByIndex_agree` — **the three forms of a range agree**, and none of them returns an object
  of another type.
-/

namespace Rustend

/-! ### Keys -/

/-- The UTF-16 code units of a character. -/
def utf16 (c : Char) : List ℕ :=
  if c.toNat < 0x10000 then [c.toNat]
  else [0xD800 + (c.toNat - 0x10000) / 0x400, 0xDC00 + (c.toNat - 0x10000) % 0x400]

/-- The keys of IndexedDB that a JSON value can be: numbers come before strings, strings compare
by their code units, and arrays come last. -/
abbrev IdbKey := NestedKey (ℚ ⊕ₗ List ℕ)

/-- A key that is a number. -/
def IdbKey.number (x : ℚ) : IdbKey := .atom (Sum.inlₗ x)

/-- A key that is a string. -/
def IdbKey.string (s : String) : IdbKey := .atom (Sum.inrₗ (s.toList.flatMap utf16))

namespace Json

mutual

/-- The key of a value, if it is a valid key. -/
def toKey : Json → Option IdbKey
  | .number n => some (.number n.asF64)
  | .string s => some (.string s)
  | .array xs => (toKeys xs).map .array
  | _ => none

/-- The keys of the elements, if all are valid. -/
def toKeys : List Json → Option (List IdbKey)
  | [] => some []
  | x :: xs => do return (← toKey x) :: (← toKeys xs)

end

/-- A step of a key path: the length of a string or an array, or a field. -/
def property (data : Json) (name : String) : Option Json :=
  match data with
  | .string s =>
      if name = "length" then
        some (.number (.posInt (.ofNat (s.toList.flatMap utf16).length)))
      else none
  | .array xs => if name = "length" then some (.number (.posInt (.ofNat xs.length))) else none
  | data => data.get name

end Json

theorem Char.toNat_cases (c : Char) :
    c.toNat < 0xD800 ∨ 0xDFFF < c.toNat ∧ c.toNat < 0x110000 := by
  rcases c.valid with hlow | hhigh
  · exact .inl hlow
  · exact .inr hhigh

/-- The first character can be told from the code units. -/
theorem utf16_append_inj {c d : Char} {r s : List ℕ} (h : utf16 c ++ r = utf16 d ++ s) :
    c = d ∧ r = s := by
  have hc := Char.toNat_cases c
  have hd := Char.toNat_cases d
  unfold utf16 at h
  split at h <;> split at h
  · simp only [List.cons_append, List.nil_append, List.cons.injEq] at h
    exact ⟨Char.toNat_inj.mp h.1, h.2⟩
  · simp only [List.cons_append, List.nil_append, List.cons.injEq] at h
    omega
  · simp only [List.cons_append, List.nil_append, List.cons.injEq] at h
    omega
  · simp only [List.cons_append, List.nil_append, List.cons.injEq] at h
    exact ⟨Char.toNat_inj.mp (by omega), h.2.2⟩

theorem utf16_injective {cs ds : List Char} (h : cs.flatMap utf16 = ds.flatMap utf16) :
    cs = ds := by
  have hne : ∀ c, utf16 c ≠ [] := by
    intro c
    unfold utf16
    split <;> simp
  induction cs generalizing ds with
  | nil =>
    cases ds with
    | nil => rfl
    | cons d ds => exact absurd (List.append_eq_nil_iff.mp h.symm).1 (hne d)
  | cons c cs ih =>
    cases ds with
    | nil => exact absurd (List.append_eq_nil_iff.mp h).1 (hne c)
    | cons d ds =>
      rw [List.flatMap_cons, List.flatMap_cons] at h
      obtain ⟨rfl, htail⟩ := utf16_append_inj h
      rw [ih htail]

/-- Different strings are different keys. -/
@[simp] theorem IdbKey.string_inj {s t : String} : IdbKey.string s = IdbKey.string t ↔ s = t := by
  constructor
  · intro h
    have hunits : s.toList.flatMap utf16 = t.toList.flatMap utf16 :=
      Sum.inr.inj (toLex.injective (NestedKey.atom.inj h))
    exact String.toList_inj.mp (utf16_injective hunits)
  · rintro rfl
    rfl

/-! ### The index -/

namespace IndexEntry

variable (entry : IndexEntry)

/-- The value at `data.<path>` of a head. -/
def field (head : HeadRecord) : Option Json :=
  ((stripRoot entry.jsonPath.toList).splitOn '.').foldl
    (fun value name => value.bind (·.property (String.ofList name))) head.data

/-- The value under which a head is indexed, as a key. -/
def indexed (head : HeadRecord) : Option IdbKey := (entry.field head).bind Json.toKey

/-- The key of a head in the index, if it is a valid key. -/
def indexKey (head : HeadRecord) : Option IdbKey :=
  (entry.indexed head).map fun k => .pair (IdbKey.string head.objectType) k

/-- The records of the index, by their keys and then by the keys of the store. -/
def indexRecords (heads : KeyedStore HeadRecord.key) : List (IdbKey × HeadRecord) :=
  (heads.records.filterMap fun head => (entry.indexKey head).map (·, head)).insertionSort
    fun a b => a.1 ≤ b.1

/-- `getAll` on the index: everything, or what lies in a range. -/
def getAll (heads : KeyedStore HeadRecord.key) (query : Option (KeyRange IdbKey)) :
    List HeadRecord :=
  ((entry.indexRecords heads).filter fun record =>
    query.all fun range => decide (range.Contains record.1)).map (·.2)

end IndexEntry

/-! ### The query -/

/-- The heads an application asks for. -/
inductive IndexRange where
  | all
  | eq (v : Json)
  | bounds (lower : Json) (lowerInclusive : Bool) (upper : Json) (upperInclusive : Bool)
  deriving DecidableEq

/-- A version of an object, as the application sees it. -/
structure ObjectVersion (T : Type) where
  objectId : ObjectId
  revisionId : RevisionId
  content : VersionContent T
  deriving DecidableEq

/-- What the query takes from the crates below it. -/
structure Bridge (T : Type) where
  /-- Whether `serde_wasm_bindgen::to_value` represents a value, or its error. -/
  represent : Json → Except String Unit
  /-- The text of a `DataError`. -/
  dataError : String
  /-- `serde_json::from_value`. -/
  fromValue : Json → Except String T

namespace Bridge

variable {T : Type} (bridge : Bridge T)

/-- `serde_wasm_bindgen::to_value(&(&object_type, v))`. -/
def toValue (v : Json) : Except ClientError Json :=
  match bridge.represent v with
  | .ok () => .ok v
  | .error msg => .error (.indexedDb msg)

/-- The key of an object type and a value. -/
def pairKey (objectType : String) (v : Json) : Except ClientError IdbKey :=
  match v.toKey with
  | some k => .ok (.pair (IdbKey.string objectType) k)
  | none => .error (.indexedDb bridge.dataError)

/-- The range of keys to ask for; `KeyRange::bound` refuses ends in the wrong order. -/
def keyRange (objectType : String) : IndexRange → Except ClientError (Option (KeyRange IdbKey))
  | .all => .ok none
  | .eq v => do
      let key ← bridge.pairKey objectType (← bridge.toValue v)
      return some (.only key)
  | .bounds lower lowerInclusive upper upperInclusive => do
      let lk ← bridge.toValue lower
      let uk ← bridge.toValue upper
      let lk ← bridge.pairKey objectType lk
      let uk ← bridge.pairKey objectType uk
      if uk < lk then .error (.indexedDb bridge.dataError)
      else return some ⟨lk, uk, !lowerInclusive, !upperInclusive⟩

/-- A head, as the application sees it. -/
def version (head : HeadRecord) : Except ClientError (ObjectVersion T) :=
  match head.content with
  | .active data =>
      match bridge.fromValue data with
      | .ok v => .ok ⟨head.objectId, head.revisionId, .active v⟩
      | .error msg => .error (.serialisation msg)
  | .deleted => .ok ⟨head.objectId, head.revisionId, .deleted⟩

end Bridge

/-- `query_by_index`. -/
def queryByIndex {T : Type} (bridge : Bridge T) (schema : IndexSchema)
    (heads : KeyedStore HeadRecord.key) (indexName : String) (range : IndexRange) :
    Except ClientError (List (ObjectVersion T)) :=
  match schema.entries.find? (·.name = indexName) with
  | none => .error (.indexedDb ("unknown index: " ++ indexName))
  | some entry => do
      let query ← bridge.keyRange entry.objectType range
      -- the scan of the whole index returns the heads of all types
      let wanted := (entry.getAll heads query).filter fun head =>
        !(range = .all && head.objectType ≠ entry.objectType)
      wanted.mapM bridge.version

/-! ### What the index answers -/

section Answers

variable {entry : IndexEntry} {heads : KeyedStore HeadRecord.key} {head : HeadRecord}

theorem mem_indexRecords {record : IdbKey × HeadRecord} :
    record ∈ entry.indexRecords heads ↔
      record.2 ∈ heads ∧ entry.indexKey record.2 = some record.1 := by
  obtain ⟨k, head⟩ := record
  unfold IndexEntry.indexRecords
  rw [List.mem_insertionSort, List.mem_filterMap]
  constructor
  · rintro ⟨x, hx, hk⟩
    obtain ⟨_, hkey, heq⟩ := Option.map_eq_some_iff.mp hk
    cases heq
    exact ⟨hx, hkey⟩
  · rintro ⟨hx, hkey⟩
    exact ⟨head, hx, by rw [hkey]; rfl⟩

theorem indexKey_eq_some {k : IdbKey} : entry.indexKey head = some k ↔
    ∃ v, entry.indexed head = some v ∧ k = .pair (IdbKey.string head.objectType) v := by
  unfold IndexEntry.indexKey
  rw [Option.map_eq_some_iff]
  exact exists_congr fun v => and_congr_right fun _ => eq_comm

/-- Every head that the index returns is in the store, under a valid key. -/
theorem mem_getAll {query : Option (KeyRange IdbKey)} (h : head ∈ entry.getAll heads query) :
    head ∈ heads ∧ ∃ v, entry.indexed head = some v := by
  obtain ⟨record, hrecord, rfl⟩ := List.mem_map.mp h
  obtain ⟨hmem, hkey⟩ := mem_indexRecords.mp (List.mem_filter.mp hrecord).1
  obtain ⟨v, hv, -⟩ := indexKey_eq_some.mp hkey
  exact ⟨hmem, v, hv⟩

/-- **What a range of keys with one object type selects**: of all that the index holds, the heads
of this type whose value lies in the range of values. -/
theorem getAll_pairs (objectType : String) (values : KeyRange IdbKey) :
    entry.getAll heads (some (.pairs (IdbKey.string objectType) values)) =
      ((entry.getAll heads none).filter fun head => decide (head.objectType = objectType)).filter
        fun head => (entry.indexed head).any fun k => decide (values.Contains k) := by
  unfold IndexEntry.getAll
  rw [List.filter_filter, List.filter_map, List.filter_filter]
  congr 1
  refine List.filter_congr fun record hrecord => ?_
  obtain ⟨v, hv, hkey⟩ := indexKey_eq_some.mp (mem_indexRecords.mp hrecord).2
  simp only [Option.all_some, Option.all_none, Function.comp_apply, Bool.true_and, hv, hkey,
    Option.any_some, KeyRange.contains_pair_iff, IdbKey.string_inj, Bool.decide_and, Bool.and_comm]

end Answers

/-! ### The ranges -/

/-- The values that a range asks for. -/
def IndexRange.values : IndexRange → Option (KeyRange IdbKey)
  | .all => none
  | .eq v => v.toKey.map .only
  | .bounds lower lowerInclusive upper upperInclusive => do
      return ⟨← lower.toKey, ← upper.toKey, !lowerInclusive, !upperInclusive⟩

section Query

variable {T : Type} {bridge : Bridge T} {range : IndexRange} {objectType : String}

theorem toValue_ok {v w : Json} (h : bridge.toValue v = .ok w) : w = v := by
  unfold Bridge.toValue at h
  split at h
  · exact (Except.ok.inj h).symm
  · cases h

theorem pairKey_ok {v : Json} {key : IdbKey} (h : bridge.pairKey objectType v = .ok key) :
    ∃ k, v.toKey = some k ∧ key = .pair (IdbKey.string objectType) k := by
  unfold Bridge.pairKey at h
  split at h
  · next k hk => exact ⟨k, hk, (Except.ok.inj h).symm⟩
  · cases h

/-- A range that is not that of everything is one of keys with the object type. -/
theorem keyRange_ok {query : Option (KeyRange IdbKey)} (hrange : range ≠ .all)
    (h : bridge.keyRange objectType range = .ok query) :
    ∃ values, range.values = some values ∧
      query = some (.pairs (IdbKey.string objectType) values) := by
  cases range with
  | all => exact absurd rfl hrange
  | eq v =>
    unfold Bridge.keyRange at h
    simp only [Except.bind_eq_ok] at h
    obtain ⟨w, hw, key, hkey, h⟩ := h
    obtain rfl := toValue_ok hw
    obtain ⟨k, hk, rfl⟩ := pairKey_ok hkey
    cases h
    exact ⟨.only k, by rw [IndexRange.values, hk]; rfl, rfl⟩
  | bounds lower lowerInclusive upper upperInclusive =>
    unfold Bridge.keyRange at h
    simp only [Except.bind_eq_ok] at h
    obtain ⟨l, hl, u, hu, lk, hlk, uk, huk, h⟩ := h
    obtain rfl := toValue_ok hl
    obtain rfl := toValue_ok hu
    obtain ⟨lk, hlower, rfl⟩ := pairKey_ok hlk
    obtain ⟨uk, hupper, rfl⟩ := pairKey_ok huk
    split at h
    · cases h
    · cases h
      exact ⟨⟨lk, uk, !lowerInclusive, !upperInclusive⟩,
        by rw [IndexRange.values, hlower, hupper]; rfl, rfl⟩

/-- A version is that of its head. -/
theorem version_ok {head : HeadRecord} {version : ObjectVersion T}
    (h : bridge.version head = .ok version) :
    version.objectId = head.objectId ∧ version.revisionId = head.revisionId := by
  unfold Bridge.version at h
  split at h
  · split at h
    · cases h
      exact ⟨rfl, rfl⟩
    · cases h
  · cases h
    exact ⟨rfl, rfl⟩

end Query

/-! ### The three forms -/

section Forms

variable {ε α β : Type} {f : α → Except ε β}

theorem mapM_cons_ok {x : α} {xs : List α} {ys : List β} (h : (x :: xs).mapM f = .ok ys) :
    ∃ y ys', f x = .ok y ∧ xs.mapM f = .ok ys' ∧ ys = y :: ys' := by
  rw [List.mapM_cons] at h
  obtain ⟨y, hy, h⟩ := Except.bind_eq_ok.mp h
  obtain ⟨ys', hys, h⟩ := Except.bind_eq_ok.mp h
  cases h
  exact ⟨y, ys', hy, hys, rfl⟩

theorem mem_mapM_ok {xs : List α} {ys : List β} (h : xs.mapM f = .ok ys) {y : β} (hy : y ∈ ys) :
    ∃ x ∈ xs, f x = .ok y := by
  induction xs generalizing ys with
  | nil =>
    cases h
    cases hy
  | cons x xs ih =>
    obtain ⟨y', ys', hx, hxs, rfl⟩ := mapM_cons_ok h
    rcases List.mem_cons.mp hy with rfl | hy
    · exact ⟨x, List.mem_cons_self, hx⟩
    · obtain ⟨x', hx', hf⟩ := ih hxs hy
      exact ⟨x', List.mem_cons_of_mem _ hx', hf⟩

/-- What is made of a part is the part of what is made of the whole. -/
theorem mapM_filter_ok {p : α → Bool} {q : β → Bool} {xs : List α} {ys zs : List β}
    (hq : ∀ x ∈ xs, ∀ y, f x = .ok y → q y = p x) (hxs : xs.mapM f = .ok ys)
    (hpart : (xs.filter p).mapM f = .ok zs) : zs = ys.filter q := by
  induction xs generalizing ys zs with
  | nil =>
    cases hxs
    cases hpart
    rfl
  | cons x xs ih =>
    obtain ⟨y, ys', hx, htail, rfl⟩ := mapM_cons_ok hxs
    have hqtail := fun x' hx' => hq x' (List.mem_cons_of_mem _ hx')
    rw [List.filter_cons, hq x List.mem_cons_self y hx]
    by_cases hp : p x = true
    · rw [List.filter_cons_of_pos hp] at hpart
      obtain ⟨y', zs', hx', hzs, rfl⟩ := mapM_cons_ok hpart
      obtain rfl : y = y' := Except.ok.inj (hx.symm.trans hx')
      rw [if_pos hp, ih hqtail htail hzs]
    · rw [List.filter_cons_of_neg hp] at hpart
      rw [if_neg hp, ih hqtail htail hpart]

end Forms

section Agree

variable {T : Type} {bridge : Bridge T} {schema : IndexSchema} {heads : KeyedStore HeadRecord.key}
  {entry : IndexEntry}

/-- The value under which the index holds the head that is a version. -/
def IndexEntry.valueOf (entry : IndexEntry) (heads : KeyedStore HeadRecord.key)
    (version : ObjectVersion T) : Option IdbKey :=
  (heads.get? (headKey version.objectId version.revisionId.uuid)).bind entry.indexed

theorem valueOf_version {head : HeadRecord} (hhead : head ∈ heads) {version : ObjectVersion T}
    (h : bridge.version head = .ok version) : entry.valueOf heads version = entry.indexed head := by
  obtain ⟨ho, hr⟩ := version_ok h
  have hget : heads.get? (headKey version.objectId version.revisionId.uuid) = some head :=
    KeyedStore.get?_eq_some.mpr ⟨hhead, by rw [ho, hr]; rfl⟩
  rw [IndexEntry.valueOf, hget, Option.bind_some]

/-- The entry of a name, where the names are distinct. -/
theorem find_entry (hnames : schema.names.Nodup) (hentry : entry ∈ schema.entries) :
    schema.entries.find? (·.name = entry.name) = some entry := by
  have hsome : (schema.entries.find? (·.name = entry.name)).isSome :=
    List.find?_isSome.mpr ⟨entry, hentry, decide_eq_true rfl⟩
  obtain ⟨found, hfound⟩ := Option.isSome_iff_exists.mp hsome
  have hname := List.find?_some hfound
  rw [decide_eq_true_eq] at hname
  rw [hfound, List.inj_on_of_nodup_map hnames (List.mem_of_find?_eq_some hfound) hentry hname]

/-- What a query that succeeds has returned. -/
theorem queryByIndex_ok (hnames : schema.names.Nodup) (hentry : entry ∈ schema.entries)
    {range : IndexRange} {versions : List (ObjectVersion T)}
    (h : queryByIndex bridge schema heads entry.name range = .ok versions) :
    ∃ query, bridge.keyRange entry.objectType range = .ok query ∧
      ((entry.getAll heads query).filter fun head =>
        !(range = .all && head.objectType ≠ entry.objectType)).mapM bridge.version =
      .ok versions := by
  unfold queryByIndex at h
  rw [find_entry hnames hentry] at h
  exact Except.bind_eq_ok.mp h

/-- The whole of the index: the heads of its object type. -/
theorem queryByIndex_all (hnames : schema.names.Nodup) (hentry : entry ∈ schema.entries)
    {versions : List (ObjectVersion T)}
    (h : queryByIndex bridge schema heads entry.name .all = .ok versions) :
    ((entry.getAll heads none).filter fun head => decide (head.objectType = entry.objectType)).mapM
      bridge.version = .ok versions := by
  obtain ⟨query, hquery, h⟩ := queryByIndex_ok hnames hentry h
  cases hquery
  refine Eq.trans (congrArg _ (List.filter_congr fun head _ => ?_)) h
  simp

/-- A range of values: of these heads, those whose value lies in the range. -/
theorem queryByIndex_range (hnames : schema.names.Nodup) (hentry : entry ∈ schema.entries)
    {range : IndexRange} (hrange : range ≠ .all) {versions : List (ObjectVersion T)}
    (h : queryByIndex bridge schema heads entry.name range = .ok versions) :
    ∃ values, range.values = some values ∧
      (((entry.getAll heads none).filter fun head =>
        decide (head.objectType = entry.objectType)).filter fun head =>
        (entry.indexed head).any fun k => decide (values.Contains k)).mapM bridge.version =
      .ok versions := by
  obtain ⟨query, hquery, h⟩ := queryByIndex_ok hnames hentry h
  obtain ⟨values, hvalues, rfl⟩ := keyRange_ok hrange hquery
  refine ⟨values, hvalues, ?_⟩
  rw [← getAll_pairs]
  refine Eq.trans (congrArg _ (Eq.symm (List.filter_eq_self.mpr fun head _ => ?_))) h
  simp [hrange]

/-- The part of the versions whose values lie in the range. -/
theorem queryByIndex_part (hnames : schema.names.Nodup) (hentry : entry ∈ schema.entries)
    {range : IndexRange} (hrange : range ≠ .all) {all part : List (ObjectVersion T)}
    (hall : queryByIndex bridge schema heads entry.name .all = .ok all)
    (hpart : queryByIndex bridge schema heads entry.name range = .ok part) :
    ∃ values, range.values = some values ∧ part = all.filter fun version =>
      (entry.valueOf heads version).any fun k => decide (values.Contains k) := by
  obtain ⟨values, hvalues, hpart⟩ := queryByIndex_range hnames hentry hrange hpart
  refine ⟨values, hvalues, mapM_filter_ok (fun head hhead version hversion => ?_)
    (queryByIndex_all hnames hentry hall) hpart⟩
  have hmem := (mem_getAll (List.mem_filter.mp hhead).1).1
  rw [valueOf_version hmem hversion]

/-- A version that was returned is that of a head of the object type of the index. -/
theorem queryByIndex_type (hnames : schema.names.Nodup) (hentry : entry ∈ schema.entries)
    {range : IndexRange} {versions : List (ObjectVersion T)}
    (h : queryByIndex bridge schema heads entry.name range = .ok versions) {version}
    (hversion : version ∈ versions) : ∃ head ∈ heads, head.objectType = entry.objectType ∧
      bridge.version head = .ok version := by
  have hhead : ∃ head ∈ (entry.getAll heads none).filter fun head =>
      decide (head.objectType = entry.objectType), bridge.version head = .ok version := by
    by_cases hrange : range = .all
    · subst hrange
      exact mem_mapM_ok (queryByIndex_all hnames hentry h) hversion
    · obtain ⟨values, -, h⟩ := queryByIndex_range hnames hentry hrange h
      obtain ⟨head, hhead, hok⟩ := mem_mapM_ok h hversion
      exact ⟨head, (List.mem_filter.mp hhead).1, hok⟩
  obtain ⟨head, hhead, hok⟩ := hhead
  obtain ⟨hmem, htype⟩ := List.mem_filter.mp hhead
  exact ⟨head, (mem_getAll hmem).1, of_decide_eq_true htype, hok⟩

/-- **The three forms of a range agree.**  Where the query of everything succeeds too, the query
of one value returns the part of it whose value this is, and the query of an interval the part
whose value lies in the interval, each end included or not as its flag says; and all that any of
them returns is of the object type of the index. -/
theorem queryByIndex_agree (hnames : schema.names.Nodup) (hentry : entry ∈ schema.entries)
    {all : List (ObjectVersion T)}
    (hall : queryByIndex bridge schema heads entry.name .all = .ok all) :
    (∀ v part, queryByIndex bridge schema heads entry.name (.eq v) = .ok part →
      part = all.filter fun version => decide (entry.valueOf heads version = v.toKey)) ∧
    (∀ lower lowerInclusive upper upperInclusive part,
      queryByIndex bridge schema heads entry.name
        (.bounds lower lowerInclusive upper upperInclusive) = .ok part →
      ∃ lk uk, lower.toKey = some lk ∧ upper.toKey = some uk ∧
        part = all.filter fun version => (entry.valueOf heads version).any fun k =>
          decide ((if lowerInclusive then lk ≤ k else lk < k) ∧
            if upperInclusive then k ≤ uk else k < uk)) ∧
    ∀ range part, queryByIndex bridge schema heads entry.name range = .ok part →
      ∀ version ∈ part, ∃ head ∈ heads, head.objectType = entry.objectType ∧
        bridge.version head = .ok version := by
  refine ⟨fun v part hpart => ?_, fun lower li upper ui part hpart => ?_,
    fun range part hpart version => queryByIndex_type hnames hentry hpart⟩
  · have hrange : IndexRange.eq v ≠ .all := nofun
    obtain ⟨values, hvalues, rfl⟩ := queryByIndex_part hnames hentry hrange hall hpart
    obtain ⟨k, hk, rfl⟩ := Option.map_eq_some_iff.mp hvalues
    refine List.filter_congr fun version _ => ?_
    rw [hk]
    cases entry.valueOf heads version with
    | none => rfl
    | some x => simp [KeyRange.contains_only_iff]
  · have hrange : IndexRange.bounds lower li upper ui ≠ .all := nofun
    obtain ⟨values, hvalues, rfl⟩ := queryByIndex_part hnames hentry hrange hall hpart
    obtain ⟨lk, hlk, hvalues⟩ := Option.bind_eq_some_iff.mp hvalues
    obtain ⟨uk, huk, hvalues⟩ := Option.bind_eq_some_iff.mp hvalues
    cases hvalues
    refine ⟨lk, uk, hlk, huk, List.filter_congr fun version _ => ?_⟩
    unfold KeyRange.Contains
    -- an end is open where its flag does not include it
    cases li <;> cases ui <;> rfl

end Agree

/-- The head of a new object with a year. -/
def yearHead (n : ℕ) (objectType : String) (year : UInt64) : HeadRecord where
  objectId := ⟨⟨n⟩⟩
  revisionId := ⟨⟨n⟩⟩
  objectType := objectType
  content := .active (.object [("year", .number (.posInt year))])
  lineage := .root
  data := some (.object [("year", .number (.posInt year))])

/-- Payloads as they are, and all values represented. -/
def plainBridge : Bridge Json where
  represent _ := .ok ()
  dataError := "DataError"
  fromValue := .ok

/-- Two trips and a hotel. -/
def yearHeads : KeyedStore HeadRecord.key :=
  KeyedStore.empty.putAll [yearHead 1 "trip" 2025, yearHead 2 "hotel" 2025, yearHead 3 "trip" 2024]

/-- The years of the trips, without the hotel. -/
theorem queryByIndex_agree_years : ∃ all : List (ObjectVersion Json),
    queryByIndex plainBridge firstSchema yearHeads "by_year" .all = .ok all ∧
    all.map (·.revisionId) = [⟨⟨3⟩⟩, ⟨⟨1⟩⟩] ∧
    (queryByIndex plainBridge firstSchema yearHeads "by_year"
      (.eq (.number (.posInt 2025)))).toOption.map (·.map (·.revisionId)) = some [⟨⟨1⟩⟩] ∧
    ∀ v part, queryByIndex plainBridge firstSchema yearHeads "by_year" (.eq v) = .ok part →
      part = all.filter fun version => decide
        (IndexEntry.valueOf ⟨"by_year", "trip", "$.year"⟩ yearHeads version = v.toKey) := by
  have hids : (queryByIndex plainBridge firstSchema yearHeads "by_year" .all).toOption.map
      (·.map (·.revisionId)) = some [⟨⟨3⟩⟩, ⟨⟨1⟩⟩] := by decide +kernel
  have hone : (queryByIndex plainBridge firstSchema yearHeads "by_year"
      (.eq (.number (.posInt 2025)))).toOption.map (·.map (·.revisionId)) = some [⟨⟨1⟩⟩] := by
    decide +kernel
  have hentry : (⟨"by_year", "trip", "$.year"⟩ : IndexEntry) ∈ firstSchema.entries :=
    List.mem_cons_self
  cases hall : queryByIndex plainBridge firstSchema yearHeads "by_year" .all with
  | error e =>
    rw [hall] at hids
    cases hids
  | ok all =>
    rw [hall] at hids
    have hagree := queryByIndex_agree (by decide) hentry hall
    exact ⟨all, rfl, Option.some.inj hids, hone, hagree.1⟩

end Rustend

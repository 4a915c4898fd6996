import Rustend.Core.Json
import Mathlib.Logic.Function.Basic
import Mathlib.Data.List.Nodup
import Mathlib.Data.List.Perm.Basic

/-!
# The schema of the client's database

`open_database` creates the object stores on the first open, and on every open with a higher
version it deletes and creates the indexes of the application.  It deletes the indexes that the
new schema names; an index that the new schema leaves out stays.

An upgrade is one transaction: where a step of it fails, the database is as it was.  Which key
paths IndexedDB accepts is a parameter.

## Main definitions

* `IndexEntry`, `IndexSchema` — what the application declares.
* `ObjectStore`, `Database` — stores with their indexes and their records.
* `openDatabase` — an open, with the upgrade.
* `History` — opens with ever higher versions, and writes in between.
* `Opening.Declares` — an open leaves the declared indexes and keeps the rest.

## Main results

* `upgrade_ok` — what an upgrade makes of the stores.
* `History.declares_iff` — **when every open leaves the declared indexes.**
* `History.indexNames` — the names that the indexes have after all.
-/

namespace Rustend

/-! ### Schemas -/

/-- `KeyPath`. -/
inductive KeyPath where
  | single (path : String)
  | array (paths : List String)
  deriving DecidableEq

/-- An index that the application declares. -/
structure IndexEntry where
  name : String
  objectType : String
  jsonPath : String
  deriving DecidableEq

/-- The indexes of one version of the application. -/
structure IndexSchema where
  version : ℕ
  entries : List IndexEntry
  deriving DecidableEq

/-- An index of an object store. -/
structure Index where
  name : String
  keyPath : KeyPath
  unique : Bool
  deriving DecidableEq

/-- The key path under which an entry is indexed: the type of the object and the field. -/
def IndexEntry.keyPath (entry : IndexEntry) : KeyPath :=
  .array ["object_type", "data." ++ String.ofList (stripRoot entry.jsonPath.toList)]

/-- The index that an entry declares. -/
def IndexEntry.index (entry : IndexEntry) : Index := ⟨entry.name, entry.keyPath, false⟩

/-- The names of the declared indexes. -/
def IndexSchema.names (schema : IndexSchema) : List String := schema.entries.map (·.name)

/-! ### Object stores -/

/-- The errors of IndexedDB. -/
inductive DomError where
  | constraintError
  | syntaxError
  | notFoundError
  | versionError
  | typeError
  | abortError
  deriving DecidableEq

/-- An object store with its records; two indexes of it never have one name. -/
structure ObjectStore where
  keyPath : KeyPath
  indexes : List Index
  records : List Json
  distinct : (indexes.map (·.name)).Nodup
  deriving DecidableEq

namespace ObjectStore

/-- The names of the indexes. -/
def indexNames (store : ObjectStore) : List String := store.indexes.map (·.name)

/-- `delete_index`. -/
def deleteIndex (name : String) (store : ObjectStore) : Except DomError ObjectStore :=
  if name ∈ store.indexNames then
    .ok { store with
      indexes := store.indexes.filter (·.name ≠ name)
      distinct := store.distinct.sublist (List.filter_sublist.map _) }
  else .error .notFoundError

/-- `create_index`. -/
def createIndex (valid : KeyPath → Bool) (name : String) (keyPath : KeyPath) (store : ObjectStore) :
    Except DomError ObjectStore :=
  if h : name ∈ store.indexNames then .error .constraintError
  else if !valid keyPath then .error .syntaxError
  else
    .ok { store with
      indexes := store.indexes ++ [⟨name, keyPath, false⟩]
      distinct := by
        rw [List.map_append, List.nodup_append]
        refine ⟨store.distinct, List.nodup_singleton _, ?_⟩
        intro a ha b hb heq
        rw [List.map_singleton, List.mem_singleton] at hb
        obtain rfl : a = name := heq.trans hb
        exact h ha }

/-- `let _ = heads_store.delete_index(name)`. -/
def dropIndex (store : ObjectStore) (name : String) : ObjectStore :=
  (store.deleteIndex name).toOption.getD store

/-- Drop and recreate the indexes of the application. -/
def recreate (valid : KeyPath → Bool) (entries : List IndexEntry) (store : ObjectStore) :
    Except DomError ObjectStore :=
  entries.foldlM (fun store entry => store.createIndex valid entry.name entry.keyPath)
    (entries.foldl (fun store entry => store.dropIndex entry.name) store)

end ObjectStore

/-- The object stores `revisions`, `object_heads`, `files` and `sync_state`. -/
inductive StoreName where
  | revisions
  | objectHeads
  | files
  | syncState
  deriving DecidableEq

/-- The object stores that are there. -/
abbrev Stores := StoreName → Option ObjectStore

namespace Stores

/-- `create_object_store`. -/
def createObjectStore (valid : KeyPath → Bool) (name : StoreName) (keyPath : KeyPath)
    (stores : Stores) : Except DomError Stores :=
  if !valid keyPath then .error .syntaxError
  else if (stores name).isSome then .error .constraintError
  else .ok (Function.update stores name (some ⟨keyPath, [], [], List.nodup_nil⟩))

/-- A change to the store of a name, `transaction().object_store(name)`. -/
def onStore (name : StoreName) (f : ObjectStore → Except DomError ObjectStore) (stores : Stores) :
    Except DomError Stores :=
  match stores name with
  | none => .error .notFoundError
  | some store => do return Function.update stores name (some (← f store))

/-- The base stores, created on the first open. -/
def createBase (valid : KeyPath → Bool) (stores : Stores) : Except DomError Stores := do
  let stores ← createObjectStore valid .revisions (.single "id") stores
  let stores ← onStore .revisions
    (ObjectStore.createIndex valid "by_object_id" (.single "object_id")) stores
  let stores ← onStore .revisions
    (ObjectStore.createIndex valid "by_sync_status" (.single "sync_status")) stores
  let stores ← createObjectStore valid .objectHeads (.array ["object_id", "revision_id"]) stores
  let stores ← createObjectStore valid .files (.single "object_id") stores
  createObjectStore valid .syncState (.single "key") stores

/-- The upgrade: the base stores if there are none, and the indexes of the application. -/
def upgrade (valid : KeyPath → Bool) (schema : IndexSchema) (oldVersion : ℕ) (stores : Stores) :
    Except DomError Stores := do
  let stores ← (if oldVersion = 0 then createBase valid stores else pure stores)
  onStore .objectHeads (ObjectStore.recreate valid schema.entries) stores

end Stores

/-- The database of a name; one that is not there has version zero. -/
structure Database where
  version : ℕ
  stores : Stores

/-- No database. -/
def Database.absent : Database := ⟨0, fun _ => none⟩

/-- `open_database`: a failed upgrade leaves the database as it was. -/
def openDatabase (valid : KeyPath → Bool) (schema : IndexSchema) (db : Database) :
    Except DomError Unit × Database :=
  if schema.version = 0 then (.error .typeError, db)
  else if schema.version < db.version then (.error .versionError, db)
  else if schema.version = db.version then (.ok (), db)
  else
    match db.stores.upgrade valid schema db.version with
    | .ok stores => (.ok (), ⟨schema.version, stores⟩)
    -- an exception in the handler aborts the upgrade
    | .error _ => (.error .abortError, db)

/-! ### What an upgrade does -/

theorem Except.bind_eq_ok {ε α β : Type} {x : Except ε α} {f : α → Except ε β} {b : β} :
    (x >>= f) = .ok b ↔ ∃ a, x = .ok a ∧ f a = .ok b := by
  cases x with
  | error e => exact ⟨(nomatch ·), fun ⟨_, h, _⟩ => nomatch h⟩
  | ok a =>
    constructor
    · intro h
      exact ⟨a, rfl, h⟩
    · rintro ⟨a', ha, h⟩
      rwa [Except.ok.inj ha]

namespace ObjectStore

variable {valid : KeyPath → Bool} {store store' : ObjectStore} {name : String} {keyPath : KeyPath}

/-- A store with the same key path and the same records. -/
def SameRecords (store store' : ObjectStore) : Prop :=
  store'.keyPath = store.keyPath ∧ store'.records = store.records

theorem createIndex_ok (h : store.createIndex valid name keyPath = .ok store') :
    store'.indexes = store.indexes ++ [⟨name, keyPath, false⟩] ∧ store.SameRecords store' := by
  unfold createIndex at h
  split at h
  · cases h
  · split at h
    · cases h
    · cases h
      exact ⟨rfl, rfl, rfl⟩

theorem dropIndex_spec (store : ObjectStore) (name : String) :
    (store.dropIndex name).indexes = store.indexes.filter (·.name ≠ name) ∧
      store.SameRecords (store.dropIndex name) := by
  unfold dropIndex deleteIndex
  split
  · exact ⟨rfl, rfl, rfl⟩
  · next hname =>
    refine ⟨(List.filter_eq_self.mpr fun ix hix => ?_).symm, rfl, rfl⟩
    refine decide_eq_true fun heq => hname ?_
    exact heq ▸ List.mem_map_of_mem hix

theorem dropAll_spec (entries : List IndexEntry) (store : ObjectStore) :
    (entries.foldl (fun store entry => store.dropIndex entry.name) store).indexes =
      store.indexes.filter (·.name ∉ entries.map (·.name)) ∧
    store.SameRecords (entries.foldl (fun store entry => store.dropIndex entry.name) store) := by
  induction entries generalizing store with
  | nil => simp [SameRecords]
  | cons entry entries ih =>
    obtain ⟨hindexes, hkeyPath, hrecords⟩ := ih (store.dropIndex entry.name)
    obtain ⟨hdrop, hkeyPath', hrecords'⟩ := store.dropIndex_spec entry.name
    refine ⟨?_, hkeyPath.trans hkeyPath', hrecords.trans hrecords'⟩
    rw [List.foldl_cons, hindexes, hdrop, List.filter_filter]
    refine List.filter_congr fun ix _ => ?_
    simp only [List.map_cons, List.mem_cons, not_or, Bool.decide_and, Bool.and_comm]

theorem createAll_ok {entries : List IndexEntry}
    (h : entries.foldlM (fun st entry => st.createIndex valid entry.name entry.keyPath) store =
      .ok store') :
    store'.indexes = store.indexes ++ entries.map (·.index) ∧ store.SameRecords store' := by
  induction entries generalizing store with
  | nil =>
    cases h
    exact ⟨(List.append_nil _).symm, rfl, rfl⟩
  | cons entry entries ih =>
    rw [List.foldlM_cons, Except.bind_eq_ok] at h
    obtain ⟨next, hnext, h⟩ := h
    obtain ⟨hcreate, hkeyPath, hrecords⟩ := createIndex_ok hnext
    obtain ⟨hindexes, hkeyPath', hrecords'⟩ := ih h
    refine ⟨?_, hkeyPath'.trans hkeyPath, hrecords'.trans hrecords⟩
    rw [hindexes, hcreate, List.append_assoc]
    rfl

/-- **The indexes after an upgrade**: those that the schema does not name, as they were, and
those it declares. -/
theorem recreate_ok {entries : List IndexEntry} (h : store.recreate valid entries = .ok store') :
    store'.indexes = store.indexes.filter (·.name ∉ entries.map (·.name)) ++
      entries.map (·.index) ∧ store.SameRecords store' := by
  obtain ⟨hindexes, hkeyPath, hrecords⟩ := createAll_ok h
  obtain ⟨hdrop, hkeyPath', hrecords'⟩ := dropAll_spec entries store
  exact ⟨by rw [hindexes, hdrop], hkeyPath.trans hkeyPath', hrecords.trans hrecords'⟩

/-- The indexes are the declared ones just when the schema names all that there were. -/
theorem recreate_perm_iff {entries : List IndexEntry}
    (h : store.recreate valid entries = .ok store') :
    store'.indexes.Perm (entries.map (·.index)) ↔
      ∀ name ∈ store.indexNames, name ∈ entries.map (·.name) := by
  rw [(recreate_ok h).1]
  have hnil : (store.indexes.filter (·.name ∉ entries.map (·.name)) ++
      entries.map (·.index)).Perm (entries.map (·.index)) ↔
      store.indexes.filter (·.name ∉ entries.map (·.name)) = [] := by
    constructor
    · intro hperm
      have hlen := hperm.length_eq
      rw [List.length_append] at hlen
      exact List.eq_nil_of_length_eq_zero (by omega)
    · intro hnil
      rw [hnil, List.nil_append]
  rw [hnil, List.filter_eq_nil_iff]
  unfold indexNames
  rw [List.forall_mem_map]
  simp

end ObjectStore

/-! ### The stores after an upgrade -/

namespace Stores

variable {valid : KeyPath → Bool} {schema : IndexSchema} {stores stores' : Stores}

theorem onStore_ok {name : StoreName} {f : ObjectStore → Except DomError ObjectStore}
    (h : stores.onStore name f = .ok stores') : ∃ store store', stores name = some store ∧
      f store = .ok store' ∧ stores' = Function.update stores name (some store') := by
  unfold onStore at h
  split at h
  · cases h
  · next store hstore =>
    obtain ⟨store', hf, h⟩ := Except.bind_eq_ok.mp h
    cases h
    exact ⟨store, store', hstore, hf, rfl⟩

theorem createObjectStore_ok {name : StoreName} {keyPath : KeyPath}
    (h : stores.createObjectStore valid name keyPath = .ok stores') :
    stores' = Function.update stores name (some ⟨keyPath, [], [], List.nodup_nil⟩) := by
  unfold createObjectStore at h
  split at h
  · cases h
  · split at h
    · cases h
    · cases h
      rfl

/-- The first upgrade makes all the stores, without records and without an index of the
application. -/
theorem createBase_ok (h : createBase valid (fun _ => none) = .ok stores') :
    (∀ name, (stores' name).isSome) ∧
      (∀ name store, stores' name = some store → store.records = []) ∧
      ∃ heads, stores' .objectHeads = some heads ∧ heads.indexes = [] := by
  unfold createBase at h
  simp only [Except.bind_eq_ok] at h
  obtain ⟨s₁, h₁, s₂, h₂, s₃, h₃, s₄, h₄, s₅, h₅, h₆⟩ := h
  obtain rfl := createObjectStore_ok h₁
  obtain ⟨a, a', ha, hcreate, rfl⟩ := onStore_ok h₂
  obtain ⟨b, b', hb, hcreate', rfl⟩ := onStore_ok h₃
  obtain rfl := createObjectStore_ok h₄
  obtain rfl := createObjectStore_ok h₅
  obtain rfl := createObjectStore_ok h₆
  rw [Function.update_self, Option.some.injEq] at ha hb
  subst ha hb
  have hrecords : b'.records = [] :=
    (ObjectStore.createIndex_ok hcreate').2.2.trans (ObjectStore.createIndex_ok hcreate).2.2
  refine ⟨fun name => ?_, fun name store hstore => ?_, _, rfl, rfl⟩
  · cases name <;> rfl
  · cases name with
    | revisions =>
      obtain rfl : b' = store := Option.some.inj hstore
      exact hrecords
    | objectHeads | files | syncState =>
      cases hstore
      rfl

/-- The stores apart from the indexes of the application. -/
def base (stores : Stores) : Stores
  | .objectHeads => (stores .objectHeads).map fun heads =>
      { heads with
        indexes := []
        distinct := List.nodup_nil }
  | name => stores name

theorem base_update {heads heads' : ObjectStore} (hheads : stores .objectHeads = some heads)
    (hsame : heads.SameRecords heads') :
    base (Function.update stores .objectHeads (some heads')) = stores.base := by
  funext name
  cases name with
  | objectHeads =>
    simp only [base, Function.update_self, hheads, Option.map_some, hsame.1, hsame.2]
  | revisions | files | syncState => rfl

/-- **What an upgrade makes of the stores**: it recreates the indexes of the application on the
heads, which on the first open have none, and changes nothing else. -/
theorem upgrade_ok {oldVersion : ℕ} (hfresh : oldVersion = 0 → stores = fun _ => none)
    (h : stores.upgrade valid schema oldVersion = .ok stores') : ∃ heads heads' : ObjectStore,
      heads.recreate valid schema.entries = .ok heads' ∧ stores' .objectHeads = some heads' ∧
      heads.indexNames = ((stores .objectHeads).map (·.indexNames)).getD [] ∧
      (oldVersion ≠ 0 → stores'.base = stores.base) := by
  unfold upgrade at h
  obtain ⟨mid, hmid, h⟩ := Except.bind_eq_ok.mp h
  obtain ⟨heads, heads', hheads, hrecreate, rfl⟩ := onStore_ok h
  refine ⟨heads, heads', hrecreate, Function.update_self .., ?_, fun hne => ?_⟩
  · split at hmid
    · next hzero =>
      rw [hfresh hzero] at hmid ⊢
      obtain ⟨-, -, fresh, hfreshHeads, hnone⟩ := createBase_ok hmid
      obtain rfl : fresh = heads := Option.some.inj (hfreshHeads.symm.trans hheads)
      unfold ObjectStore.indexNames
      rw [hnone]
      rfl
    · cases hmid
      rw [hheads]
      rfl
  · rw [if_neg hne] at hmid
    cases hmid
    exact base_update hheads (ObjectStore.recreate_ok hrecreate).2

end Stores

/-! ### Histories -/

/-- The names of the indexes of the application. -/
def Database.indexNames (db : Database) : List String :=
  ((db.stores .objectHeads).map (·.indexNames)).getD []

/-- A database with other records. -/
def Database.withRecords (db : Database) (records : StoreName → List Json) : Database where
  version := db.version
  stores name := (db.stores name).map fun store => { store with records := records name }

/-- An open, with what it found and what it left. -/
structure Opening where
  schema : IndexSchema
  before : Database
  result : Except DomError Unit
  after : Database

/-- What a database has gone through: opens, the last one first, each with a higher version than
the ones before it, and writes of records in between. -/
inductive History (valid : KeyPath → Bool) : List Opening → Database → Prop
  | absent : History valid [] .absent
  | write {opens : List Opening} {db : Database} (h : History valid opens db)
      (records : StoreName → List Json) : History valid opens (db.withRecords records)
  | opened {opens : List Opening} {db : Database} (h : History valid opens db)
      {schema : IndexSchema} (hdistinct : schema.names.Nodup)
      (hversion : ∀ o ∈ opens, o.schema.version < schema.version) :
      History valid
        (⟨schema, db, (openDatabase valid schema db).1, (openDatabase valid schema db).2⟩ :: opens)
        (openDatabase valid schema db).2

/-- The open has left the indexes that its schema declares, and has kept the rest of a database
that was there. -/
structure Opening.Declares (o : Opening) : Prop where
  indexes : ∃ heads, o.after.stores .objectHeads = some heads ∧
    heads.indexes.Perm (o.schema.entries.map (·.index))
  base : o.before.version ≠ 0 → o.after.stores.base = o.before.stores.base

/-- The schema names every index that the open has found. -/
def Opening.NamesAll (o : Opening) : Prop := ∀ name ∈ o.before.indexNames, name ∈ o.schema.names

section Open

variable {valid : KeyPath → Bool} {schema : IndexSchema} {db db' : Database}

/-- An open that succeeds, with another version, has upgraded the database. -/
theorem openDatabase_ok (hne : schema.version ≠ db.version)
    (h : openDatabase valid schema db = (.ok (), db')) : db'.version = schema.version ∧
      db'.version ≠ 0 ∧ db.stores.upgrade valid schema db.version = .ok db'.stores := by
  unfold openDatabase at h
  split at h
  · cases h
  · next hzero =>
    split at h
    · cases h
    · split at h
      · next stores hupgrade =>
        cases h
        exact ⟨rfl, hzero, hupgrade⟩
      · cases h

/-- An open that succeeds has a version of its own, after opens with lower versions. -/
theorem openDatabase_version_ne {opens : List Opening}
    (hcases : db.version = 0 ∨ ∃ o ∈ opens, o.schema.version = db.version)
    (hversion : ∀ o ∈ opens, o.schema.version < schema.version)
    (h : openDatabase valid schema db = (.ok (), db')) : schema.version ≠ db.version := by
  intro heq
  rcases hcases with hzero | ⟨o, ho, hold⟩
  · -- version zero cannot be opened
    unfold openDatabase at h
    rw [if_pos (heq.trans hzero)] at h
    cases h
  · have := hversion o ho
    omega

theorem openDatabase_error {e : DomError} (h : openDatabase valid schema db = (.error e, db')) :
    db' = db := by
  unfold openDatabase at h
  repeat' split at h
  all_goals cases h
  all_goals rfl

/-- The names after an upgrade: those that were there, and those of the schema. -/
theorem openDatabase_indexNames (hne : schema.version ≠ db.version)
    (hfresh : db.version = 0 → db.stores = fun _ => none)
    (h : openDatabase valid schema db = (.ok (), db')) {name : String} :
    name ∈ db'.indexNames ↔ name ∈ db.indexNames ∨ name ∈ schema.names := by
  obtain ⟨-, -, hupgrade⟩ := openDatabase_ok hne h
  obtain ⟨heads, heads', hrecreate, hheads', hnames, -⟩ := Stores.upgrade_ok hfresh hupgrade
  have hentries : (schema.entries.map (·.index)).map (·.name) = schema.names := by
    rw [List.map_map]
    rfl
  unfold Database.indexNames
  rw [hheads', ← hnames, Option.map_some, Option.getD_some, ObjectStore.indexNames,
    (ObjectStore.recreate_ok hrecreate).1, List.map_append, hentries, List.mem_append]
  unfold ObjectStore.indexNames
  simp only [List.mem_map, List.mem_filter, decide_eq_true_eq]
  constructor
  · rintro (⟨ix, ⟨hix, -⟩, rfl⟩ | hname)
    · exact .inl ⟨ix, hix, rfl⟩
    · exact .inr hname
  · rintro (⟨ix, hix, rfl⟩ | hname)
    · by_cases hmem : ix.name ∈ schema.names
      · exact .inr hmem
      · exact .inl ⟨ix, ⟨hix, fun ⟨e, he, heq⟩ => hmem (heq ▸ List.mem_map_of_mem he)⟩, rfl⟩
    · exact .inr hname

/-- **When an open leaves the declared indexes**: when its schema names all that it found. -/
theorem openDatabase_declares_iff (hne : schema.version ≠ db.version)
    (hfresh : db.version = 0 → db.stores = fun _ => none)
    (h : openDatabase valid schema db = (.ok (), db')) :
    Opening.Declares ⟨schema, db, .ok (), db'⟩ ↔ Opening.NamesAll ⟨schema, db, .ok (), db'⟩ := by
  obtain ⟨-, -, hupgrade⟩ := openDatabase_ok hne h
  obtain ⟨heads, heads', hrecreate, hheads', hnames, hbase⟩ := Stores.upgrade_ok hfresh hupgrade
  have hperm := ObjectStore.recreate_perm_iff hrecreate
  have hall : (∀ name ∈ heads.indexNames, name ∈ schema.entries.map (·.name)) ↔
      Opening.NamesAll ⟨schema, db, .ok (), db'⟩ := by
    rw [hnames]
    rfl
  rw [← hall, ← hperm]
  constructor
  · rintro ⟨⟨found, hfound, hindexes⟩, -⟩
    obtain rfl : heads' = found := Option.some.inj (hheads'.symm.trans hfound)
    exact hindexes
  · intro hindexes
    exact ⟨⟨heads', hheads', hindexes⟩, hbase⟩

end Open

namespace History

variable {valid : KeyPath → Bool} {opens : List Opening} {db : Database}

/-- A database that is there has the version of an open, and one that is not has no stores. -/
theorem version_cases (h : History valid opens db) :
    (db.version = 0 ∧ db.stores = fun _ => none) ∨
      db.version ≠ 0 ∧ ∃ o ∈ opens, o.schema.version = db.version := by
  induction h with
  | absent => exact .inl ⟨rfl, rfl⟩
  | write _ records ih =>
    rcases ih with ⟨hzero, hnone⟩ | hopen
    · refine .inl ⟨hzero, ?_⟩
      unfold Database.withRecords
      rw [hnone]
      rfl
    · exact .inr hopen
  | @opened opens db _ schema _ hversion ih =>
    rcases hrun : openDatabase valid schema db with ⟨e | ⟨⟩, db'⟩
    · obtain rfl := openDatabase_error hrun
      rcases ih with hzero | ⟨hne, o, ho, heq⟩
      · exact .inl hzero
      · exact .inr ⟨hne, o, List.mem_cons_of_mem _ ho, heq⟩
    · have hcases : db.version = 0 ∨ ∃ o ∈ opens, o.schema.version = db.version :=
        ih.imp (·.1) (·.2)
      obtain ⟨hver, hne, -⟩ :=
        openDatabase_ok (openDatabase_version_ne hcases hversion hrun) hrun
      exact .inr ⟨hne, _, List.mem_cons_self, hver.symm⟩

theorem fresh (h : History valid opens db) (hzero : db.version = 0) :
    db.stores = fun _ => none := by
  rcases h.version_cases with ⟨-, hnone⟩ | ⟨hne, -⟩
  · exact hnone
  · exact absurd hzero hne

/-- An open that succeeds has a version of its own. -/
theorem version_ne (h : History valid opens db) {schema : IndexSchema} {db' : Database}
    (hversion : ∀ o ∈ opens, o.schema.version < schema.version)
    (hrun : openDatabase valid schema db = (.ok (), db')) : schema.version ≠ db.version :=
  openDatabase_version_ne (h.version_cases.imp (·.1) (·.2)) hversion hrun

/-- Each open of a history, by its run on what it found. -/
theorem mem_opens (h : History valid opens db) {o : Opening} (ho : o ∈ opens) :
    openDatabase valid o.schema o.before = (o.result, o.after) ∧
      (o.before.version = 0 → o.before.stores = fun _ => none) ∧
      (o.result = .ok () → o.schema.version ≠ o.before.version) := by
  induction h with
  | absent => cases ho
  | write _ _ ih => exact ih ho
  | @opened opens db h schema _ hversion ih =>
    rcases List.mem_cons.mp ho with rfl | ho
    · refine ⟨rfl, h.fresh, fun hok => ?_⟩
      have hrun : openDatabase valid schema db = (.ok (), (openDatabase valid schema db).2) :=
        Prod.ext hok rfl
      exact h.version_ne hversion hrun
    · exact ih ho

/-- **When every open leaves the declared indexes**: when each schema names all the indexes
that it finds.  An index that a later schema leaves out is not removed. -/
theorem declares_iff (h : History valid opens db) :
    (∀ o ∈ opens, o.result = .ok () → o.Declares) ↔
      ∀ o ∈ opens, o.result = .ok () → o.NamesAll := by
  refine forall₂_congr fun o ho => imp_congr_right fun hok => ?_
  obtain ⟨hrun, hfresh, hne⟩ := h.mem_opens ho
  obtain ⟨schema, before, result, after⟩ := o
  obtain rfl : result = .ok () := hok
  exact openDatabase_declares_iff (hne rfl) hfresh hrun

/-- **The names that the indexes have**: all that were ever declared. -/
theorem indexNames (h : History valid opens db) {name : String} :
    name ∈ db.indexNames ↔ ∃ o ∈ opens, o.result = .ok () ∧ name ∈ o.schema.names := by
  induction h with
  | absent => exact ⟨(nomatch ·), fun ⟨_, ho, _⟩ => nomatch ho⟩
  | @write opens db _ records ih =>
    have hsame : (db.withRecords records).indexNames = db.indexNames := by
      unfold Database.indexNames Database.withRecords
      rw [Option.map_map]
      rfl
    rw [hsame, ih]
  | @opened opens db h schema _ hversion ih =>
    rcases hrun : openDatabase valid schema db with ⟨e | ⟨⟩, db'⟩
    · obtain rfl := openDatabase_error hrun
      simp only [ih, List.mem_cons, exists_eq_or_imp]
      exact (or_iff_right fun ⟨hok, _⟩ => nomatch hok).symm
    · simp only [openDatabase_indexNames (h.version_ne hversion hrun) h.fresh hrun, ih,
        List.mem_cons, exists_eq_or_imp]
      rw [or_comm]
      exact or_congr_left ⟨fun hname => ⟨trivial, hname⟩, (·.2)⟩

end History

/-! ### Two versions of a schema -/

/-- The key paths of plain identifiers. -/
def plainKeyPath (keyPath : KeyPath) : Bool :=
  let plain (path : String) : Bool := (path.toList.splitOn '.').all fun part =>
    !part.isEmpty && part.all fun c => c.isAlphanum || c = '_'
  match keyPath with
  | .single path => plain path
  | .array paths => !paths.isEmpty && paths.all plain

/-- The first version of a schema, with one index. -/
def firstSchema : IndexSchema := ⟨1, [⟨"by_year", "trip", "$.year"⟩]⟩

/-- Its index on another field, and one more. -/
def widerSchema : IndexSchema :=
  ⟨2, [⟨"by_name", "trip", "$.name"⟩, ⟨"by_year", "trip", "$.start.year"⟩]⟩

/-- No index. -/
def barerSchema : IndexSchema := ⟨2, []⟩

/-- The database after the first version. -/
def firstDatabase : Database := (openDatabase plainKeyPath firstSchema .absent).2

/-- The first version, and then another. -/
theorem History.two (schema : IndexSchema) (hdistinct : schema.names.Nodup)
    (hversion : 1 < schema.version) : History plainKeyPath
      [⟨schema, firstDatabase, (openDatabase plainKeyPath schema firstDatabase).1,
        (openDatabase plainKeyPath schema firstDatabase).2⟩,
      ⟨firstSchema, .absent, (openDatabase plainKeyPath firstSchema .absent).1, firstDatabase⟩]
      (openDatabase plainKeyPath schema firstDatabase).2 := by
  refine .opened (.opened .absent (by decide) fun _ ho => nomatch ho) hdistinct fun o ho => ?_
  rw [List.mem_singleton.mp ho]
  exact hversion

/-- An index that is moved to another field, and one that is added. -/
theorem History.declares_iff_wider : ∃ opens db, History plainKeyPath opens db ∧
    opens.map (·.schema) = [widerSchema, firstSchema] ∧
    ∀ o ∈ opens, o.result = .ok () ∧ o.Declares := by
  have h := History.two widerSchema (by decide) (by decide)
  refine ⟨_, _, h, rfl, ?_⟩
  have hresult : (openDatabase plainKeyPath widerSchema firstDatabase).1 = .ok () ∧
      (openDatabase plainKeyPath firstSchema .absent).1 = .ok () := by decide +kernel
  have hfound : ∀ name ∈ firstDatabase.indexNames, name ∈ widerSchema.names := by decide +kernel
  have hdeclares := h.declares_iff.mpr fun o ho _ => by
    rcases List.mem_cons.mp ho with rfl | ho
    · exact hfound
    · rw [List.mem_singleton.mp ho]
      exact fun _ hname => nomatch hname
  intro o ho
  have hok : o.result = .ok () := by
    rcases List.mem_cons.mp ho with rfl | ho
    · exact hresult.1
    · rw [List.mem_singleton.mp ho]
      exact hresult.2
  exact ⟨hok, hdeclares o ho hok⟩

/-- **An index stays that the schema has dropped.** -/
theorem History.not_declares_barer : ∃ opens db, History plainKeyPath opens db ∧
    opens.map (·.schema) = [barerSchema, firstSchema] ∧ db.indexNames = ["by_year"] ∧
    ∃ o ∈ opens, o.result = .ok () ∧ ¬ o.Declares := by
  have h := History.two barerSchema (by decide) (by decide)
  have hresult : (openDatabase plainKeyPath barerSchema firstDatabase).1 = .ok () := by
    decide +kernel
  have hrun : openDatabase plainKeyPath barerSchema firstDatabase =
      (.ok (), (openDatabase plainKeyPath barerSchema firstDatabase).2) := Prod.ext hresult rfl
  have hfound : "by_year" ∈ firstDatabase.indexNames := by decide +kernel
  have hversion : barerSchema.version ≠ firstDatabase.version := by decide +kernel
  refine ⟨_, _, h, rfl, by decide +kernel, _, List.mem_cons_self, hresult, ?_⟩
  rw [hresult, openDatabase_declares_iff hversion (fun hzero => ?_) hrun]
  · exact fun hall => nomatch hall _ hfound
  · exact absurd hzero (by decide +kernel)

end Rustend

import Rustend.Client.FleetSafe

/-!
# What the copies agree on

Revisions travel from the client that creates them over the server to the others.  Wherever a
copy of one ends up, and whatever aborts, gets lost or comes in between on the way, it is what
a call of its author has created; and what a client believes of the server is so.

## Main definitions

* `Fleet.Copy` — a copy of a revision, on a client or on the server.
* `Fleet.OnServer` — the server holds the revision.
* `CreatedByCall` — a call of its author has created the revision.
* `travel` — a revision on its way from one client to another.

## Main results

* `FleetRun.agreement` — **copies of one revision agree, and its author has created it.**
* `FleetRun.statuses` — **what a client has recorded of a revision is so.**
* `FleetRun.wrote` — **what a call has returned is not lost.**
-/

namespace Rustend

open Interleave

/-- A copy of a revision, in the stores of a client or in the tables of the server. -/
inductive Fleet.Copy (s : Fleet) : Revision → Prop where
  | record {a : ClientId} {record : RevisionRecord} (h : record ∈ (s.stores a).revisions) :
      s.Copy record.revision
  | row {row : RevisionRow} {parents : List RevisionId} (h : row ∈ s.server.tables.revisions)
      (hp : ∀ p, p ∈ parents ↔ s.server.tables.Parent p row.id) :
      s.Copy (rowToRevisionSync row parents)

/-- The server holds the revision, with these values and parents. -/
structure Fleet.OnServer (s : Fleet) (rev : Revision) : Prop where
  row : rev.row.stored ∈ s.server.tables.revisions
  parents : ∀ p, s.server.tables.Parent p rev.id ↔ p ∈ rev.parents

/-- A call of its author has created the revision. -/
def CreatedByCall (c : FleetConfig) (rev : Revision) : Prop :=
  ∃ i job p m, c.procs i = some (job, p) ∧ job.Creates m ∧ i.1 = rev.createdBy ∧ rev.SameAs m

section Runs

variable {carriage : Carriage} {K : Json → Prop} {ids : DrawnIds} {users : ClientId → UserId}
  {c : FleetConfig}

/-- What a session has put there, it may create. -/
theorem creates_of_fitting (hkeeps : carriage.Keeps K) (hids : Distinct ids)
    (hc : Reachable (fleet carriage) Job.program (fun _ l => Fitting K ids l)
      (Fleet.start users) c) :
    ∀ i m, c.shared.made i = some m → ∃ job p, c.procs i = some (job, p) ∧ job.Creates m := by
  induction hc with
  | init =>
    intro i m hm
    cases hm
  | @next c c' l hc hl hn ih =>
    intro i m hm
    have hold : c.shared.made i = some m →
        ∃ job p, c'.procs i = some (job, p) ∧ job.Creates m := by
      intro hm
      obtain ⟨job, p, hp, hcreates⟩ := ih i m hm
      obtain ⟨p', hp'⟩ := Config.next_procs hn hp
      exact ⟨job, p', hp', hcreates⟩
    rcases Config.next_cases hn with ⟨j, job, -, -, hs, -⟩ | ⟨j, ch, job, op, next, r, rfl, hj, -⟩
    · exact hold (hs ▸ hm)
    · have hsafe := hc.safe (compatible_fleet hkeeps hids) (Accounted.start users) fun _ => rfl
      have hstep : FleetStep K ids j job.Creates c.shared c'.shared :=
        hc.guar (compatible_fleet hkeeps hids) (Accounted.start users) (fun _ => rfl) hl hn hj
          hsafe.inv
      rcases hstep.own i m hm with hm | ⟨rfl, hcreates⟩
      · exact hold hm
      · obtain ⟨p', hp'⟩ := Config.next_procs hn hj
        exact ⟨job, p', hp', hcreates⟩

/-- What a run keeps. -/
structure FleetInv (K : Json → Prop) (ids : DrawnIds) (c : FleetConfig) : Prop where
  distinct : Distinct ids
  accounted : Accounted K ids c.shared
  creates : ∀ i m, c.shared.made i = some m → ∃ job p, c.procs i = some (job, p) ∧ job.Creates m
  post : ∀ i job r, c.procs i = some (job, .done r) → job.Post i r c.shared

theorem FleetRun.inv (hkeeps : carriage.Keeps K) (hc : FleetRun carriage K users c) :
    FleetInv K (drawn c) c := by
  have hreach := hc.fitting fun _ _ h => h
  have hsafe := hreach.safe (compatible_fleet hkeeps hc.distinct) (Accounted.start users)
      fun _ => rfl
  refine ⟨hc.distinct, hsafe.inv, creates_of_fitting hkeeps hc.distinct hreach,
    fun i job r hi => ?_⟩
  exact hsafe.safe i job _ hi _ ((fleetEnv carriage K _ i job.Creates).rely_refl _)

namespace FleetInv

variable {rev other : Revision}

theorem knows_created (h : FleetInv K ids c) (hknows : c.shared.Knows rev) :
    CreatedByCall c rev := by
  obtain ⟨i, m, hm, hsame⟩ := hknows
  obtain ⟨job, p, hp, hcreates⟩ := h.creates i m hm
  have hauthor : i.1 = rev.createdBy := by rw [hsame.createdBy, (h.accounted.made i m hm).2]
  exact ⟨i, job, p, m, hp, hcreates, hauthor, hsame⟩

theorem knows_copy (h : FleetInv K ids c) (hcopy : c.shared.Copy rev) : c.shared.Knows rev := by
  cases hcopy with
  | record hrecord =>
    obtain ⟨i, m, hm, hsame, -⟩ := (h.accounted.records _ _ hrecord).made
    exact ⟨i, m, hm, hsame⟩
  | row hrow hp => exact h.accounted.knows_row hrow hp

/-- One id, one revision. -/
theorem knows_sameAs (h : FleetInv K ids c) (hrev : c.shared.Knows rev)
    (hother : c.shared.Knows other) (hid : rev.id = other.id) : rev.SameAs other := by
  obtain ⟨i, m, hm, hsame⟩ := hrev
  obtain ⟨j, m', hm', hsame'⟩ := hother
  have hids : m.id = m'.id := hsame.id.symm.trans (hid.trans hsame'.id)
  have hij : i = j :=
    h.distinct i j m.id (h.accounted.made i m hm).1 (hids ▸ (h.accounted.made j m' hm').1)
  rw [← hij, hm] at hm'
  cases hm'
  exact hsame.trans hsame'.symm

/-- What is stored under the id of a created revision is this revision. -/
theorem onServer (h : FleetInv K ids c) (hrev : c.shared.Knows rev)
    (hstored : c.shared.server.tables.Stored rev.id) : c.shared.OnServer rev := by
  obtain ⟨row, hrow, hid⟩ := hstored
  obtain ⟨i, m, hm, rfl, hparents⟩ := h.accounted.rows row hrow
  have hsame : rev.SameAs m := h.knows_sameAs hrev ⟨i, m, hm, .refl m⟩ hid.symm
  refine ⟨hsame.row ▸ hrow, fun p => ?_⟩
  rw [hsame.id, hparents, hsame.parents]

end FleetInv

/-! ### A revision that travels -/

/-- What is read in the text of a value. -/
def reread : Json → Json
  | .number n => .number (if n = written907 then read907 else n)
  | v => v

/-- What an object store gives back of a value: its integers end before 2^53. -/
def restored : Json → Except String Json
  | .number (.posInt n) =>
      if n.toNat < 2 ^ 53 then .ok (.number (.posInt n))
      else .error (toString n ++ " is no number of the store")
  | v => .ok v

/-- The payloads that both keep. -/
def Plain (v : Json) : Prop := reread v = v ∧ restored v = .ok v

instance : DecidablePred Plain := fun _ => inferInstanceAs (Decidable (_ ∧ _))

/-- A revision in a text. -/
def Revision.reread (rev : Revision) : Revision :=
  match rev.content with
  | .active v => { rev with content := .active (Rustend.reread v) }
  | .deleted => rev

/-- The ways of payloads that are numbers; a column keeps what it is given. -/
def roads : Carriage where
  push body := .ok ⟨body.revisions.map Revision.reread⟩
  pull := .ok
  pushed := Texts.exact.pushed
  pulled body := (Texts.exact.pulled body).map fun resp =>
    { resp with
      objectUpdates := resp.objectUpdates.map fun u =>
        { u with heads := u.heads.map Revision.reread } }
  column := some
  store := restored

theorem map_reread {revisions : List Revision}
    (h : ∀ rev ∈ revisions, rev.content.Within Plain) :
    revisions.map Revision.reread = revisions := by
  refine (List.map_congr_left fun rev hrev => ?_).trans (List.map_id _)
  have hrev := h rev hrev
  obtain ⟨id, objectId, objectType, lineage, createdAt, createdBy, content⟩ := rev
  cases content with
  | active v => simp only [Revision.reread, hrev.1, id_eq]
  | deleted => rfl

theorem roads_keeps : roads.Keeps Plain where
  push body body' hkept h := by
    cases h
    exact congrArg PushRequest.mk (map_reread hkept)
  pushed body resp h := by
    cases body <;> cases h
    rfl
  pulled body resp hkept h := by
    cases body <;> cases h
    next sent =>
      have hupdates : sent.objectUpdates.map (fun u =>
          { u with heads := u.heads.map Revision.reread }) = sent.objectUpdates := by
        refine (List.map_congr_left fun u hu => ?_).trans (List.map_id _)
        rw [map_reread (hkept sent rfl u hu)]
        rfl
      exact congrArg (fun updates => Body.pulled { sent with objectUpdates := updates })
        hupdates.symm
  column v _ := rfl
  store v h := h.2

/-- Client 7 saves a trip. -/
def saveTrip (payload : Json) : Job :=
  .call ⟨⟨⟨7⟩⟩, ⟨⟨1⟩⟩⟩ (.save "trip" (.ok payload)) ⟨⟨⟨10⟩⟩, ⟨⟨1⟩⟩, 0⟩

/-- A sync of everything, from the stored cursor. -/
def unfilteredSync : Job := .sync ⟨none, none, none, none⟩

/-- Client 7 saves, its first sync loses the response to the push, and its second one goes on
while client 8 syncs. -/
def travel (payload : Json) : List (Label SessionId Fate Job) :=
  [.start (⟨⟨7⟩⟩, 0) (saveTrip payload), .step (⟨⟨7⟩⟩, 0) .commits, .step (⟨⟨7⟩⟩, 0) .commits,
    .start (⟨⟨7⟩⟩, 1) unfilteredSync, .step (⟨⟨7⟩⟩, 1) .commits, .step (⟨⟨7⟩⟩, 1) .commits,
    .step (⟨⟨7⟩⟩, 1) (.delivered (.responseLost "timeout")),
    .start (⟨⟨7⟩⟩, 2) unfilteredSync, .start (⟨⟨8⟩⟩, 0) unfilteredSync,
    .step (⟨⟨7⟩⟩, 2) .commits, .step (⟨⟨8⟩⟩, 0) .commits,
    .step (⟨⟨7⟩⟩, 2) .commits, .step (⟨⟨8⟩⟩, 0) .commits,
    .step (⟨⟨7⟩⟩, 2) (.delivered .arrives), .step (⟨⟨8⟩⟩, 0) (.delivered .arrives),
    .step (⟨⟨8⟩⟩, 0) .commits, .step (⟨⟨7⟩⟩, 2) .commits, .step (⟨⟨8⟩⟩, 0) .commits,
    .step (⟨⟨8⟩⟩, 0) .commits]

/-- The records of a client, by their revision and its status. -/
def statusesOf (c : FleetConfig) (a : ClientId) : List (RevisionId × SyncStatus) :=
  (c.shared.stores a).revisions.records.map fun record => (record.id, record.syncStatus)

/-- What a call has returned. -/
def wroteBy (c : FleetConfig) (i : SessionId) : Option RevisionId :=
  match c.procs i with
  | some (.call .., .done (.ok (.wrote id))) => some id
  | _ => none

theorem record_singleton {a : ClientId} {id : RevisionId} {status : SyncStatus}
    (h : statusesOf c a = [(id, status)]) {record : RevisionRecord}
    (hrecord : record ∈ (c.shared.stores a).revisions) :
    record.id = id ∧ record.syncStatus = status := by
  have hmem : (record.id, record.syncStatus) ∈ statusesOf c a := List.mem_map_of_mem hrecord
  rw [h, List.mem_singleton] at hmem
  exact Prod.mk.inj hmem

theorem exists_record {a : ClientId} {id : RevisionId} {status : SyncStatus}
    (h : statusesOf c a = [(id, status)]) : ∃ record ∈ (c.shared.stores a).revisions,
      record.id = id ∧ record.syncStatus = status := by
  have hmem : (id, status) ∈ statusesOf c a := by
    rw [h]
    exact List.mem_singleton_self _
  obtain ⟨record, hrecord, -⟩ := List.mem_map.mp hmem
  exact ⟨record, hrecord, record_singleton h hrecord⟩

/-- The odometer of the trip. -/
def odometer : Json := .object [("km", .number (.posInt 907))]

theorem travelled : ∃ c, FleetRun roads Plain (fun _ => ⟨⟨1⟩⟩) c ∧
    statusesOf c ⟨⟨7⟩⟩ = [(⟨⟨1⟩⟩, .syncError .duplicateRevisionId)] ∧
    statusesOf c ⟨⟨8⟩⟩ = [(⟨⟨1⟩⟩, .synced)] ∧ wroteBy c (⟨⟨7⟩⟩, 0) = some ⟨⟨1⟩⟩ := by
  have hrun : ((Config.init (Fleet.start fun _ => ⟨⟨1⟩⟩)).runLabels (fleet roads) Job.program
      (travel odometer)).map (fun c =>
        (statusesOf c ⟨⟨7⟩⟩, statusesOf c ⟨⟨8⟩⟩, wroteBy c (⟨⟨7⟩⟩, 0))) =
      some ([(⟨⟨1⟩⟩, .syncError .duplicateRevisionId)], [(⟨⟨1⟩⟩, .synced)], some ⟨⟨1⟩⟩) := by
    decide +kernel
  obtain ⟨c, hc, hfacts⟩ := Option.map_eq_some_iff.mp hrun
  obtain ⟨hmine, hrest⟩ := Prod.mk.inj hfacts
  obtain ⟨htheirs, hwrote⟩ := Prod.mk.inj hrest
  -- one session draws an id
  let ids : DrawnIds := fun i => if i = (⟨⟨7⟩⟩, 0) then some ⟨⟨1⟩⟩ else none
  have hids : Distinct ids := by
    intro i j r hi hj
    simp only [ids, Option.ite_none_right_eq_some] at hi hj
    exact hi.1.trans hj.1.symm
  have hfits : ∀ l ∈ travel odometer, Fitting Plain ids l := by decide +kernel
  exact ⟨c, .of_fitting hids (Reachable.runLabels .init (fun _ l hl => hfits l hl) hc),
    hmine, htheirs, hwrote⟩

/-! ### Agreement -/

/-- **Copies of one revision agree, and its author has created it**: any two copies with one id,
on whatever clients or on the server, are the same revision, it is what a call of the client in
`created_by` creates, and the heads show such revisions. -/
theorem FleetRun.agreement (hkeeps : carriage.Keeps K) (hc : FleetRun carriage K users c) :
    (∀ rev, c.shared.Copy rev → CreatedByCall c rev ∧
      ∀ other, c.shared.Copy other → other.id = rev.id → other.SameAs rev) ∧
    ∀ a, ∀ head ∈ (c.shared.stores a).objectHeads, ∃ rev, CreatedByCall c rev ∧
      head = headRecordFromRevision rev.objectId rev ∧
      ∀ other, c.shared.Copy other → other.id = head.revisionId → other.SameAs rev := by
  have h := hc.inv hkeeps
  constructor
  · intro rev hrev
    exact ⟨h.knows_created (h.knows_copy hrev), fun other hother hid =>
      h.knows_sameAs (h.knows_copy hother) (h.knows_copy hrev) hid⟩
  · intro a head hhead
    obtain ⟨rev, hrev, rfl⟩ := h.accounted.heads a head hhead
    exact ⟨rev, h.knows_created hrev, rfl, fun other hother hid =>
      h.knows_sameAs (h.knows_copy hother) hrev hid⟩

/-- The copy that client 8 has pulled is the revision that client 7 has saved. -/
theorem FleetRun.agreement_travelled : ∃ (c : FleetConfig) (mine theirs : RevisionRecord),
    mine ∈ (c.shared.stores ⟨⟨7⟩⟩).revisions ∧ mine.id = ⟨⟨1⟩⟩ ∧
    theirs ∈ (c.shared.stores ⟨⟨8⟩⟩).revisions ∧ theirs.id = ⟨⟨1⟩⟩ ∧
    CreatedByCall c mine.revision ∧ theirs.revision.SameAs mine.revision := by
  obtain ⟨c, hc, hmine, htheirs, -⟩ := travelled
  obtain ⟨mine, hm, hmid, -⟩ := exists_record hmine
  obtain ⟨theirs, ht, htid, -⟩ := exists_record htheirs
  obtain ⟨hcreated, hagree⟩ := (FleetRun.agreement roads_keeps hc).1 mine.revision (.record hm)
  exact ⟨c, mine, theirs, hm, hmid, ht, htid, hcreated,
    hagree theirs.revision (.record ht) (htid.trans hmid.symm)⟩

/-- The payloads of a client's records. -/
def payloadsOf (c : FleetConfig) (a : ClientId) : List Content :=
  (c.shared.stores a).revisions.records.map (·.content)

-- a payload that is not kept: the same run leaves two copies that differ
example : ((Config.init (Fleet.start fun _ => ⟨⟨1⟩⟩)).runLabels (fleet roads) Job.program
    (travel (.number written907))).map (fun c => (payloadsOf c ⟨⟨7⟩⟩, payloadsOf c ⟨⟨8⟩⟩)) =
      some ([.active (.number written907)], [.active (.number read907)]) := by
  decide +kernel

/-! ### What a client believes of the server -/

/-- **What a client has recorded of a revision is so**: if it is synced, or has been rejected as
a duplicate, then the server holds this very revision; if it is pending, a call of this client
has created it just so; and only the author holds it with a status other than synced. -/
theorem FleetRun.statuses (hkeeps : carriage.Keeps K) (hc : FleetRun carriage K users c)
    (a : ClientId) {record : RevisionRecord}
    (hrecord : record ∈ (c.shared.stores a).revisions) :
    (record.syncStatus = .synced ∨ record.syncStatus = .syncError .duplicateRevisionId →
      c.shared.OnServer record.revision) ∧
    (record.syncStatus = .pending → ∃ n job p, c.procs (a, n) = some (job, p) ∧
      job.Creates record.revision) ∧
    (record.syncStatus ≠ .synced → record.revision.createdBy = a) := by
  have h := hc.inv hkeeps
  have hvouches := h.accounted.records a record hrecord
  refine ⟨fun hstatus => ?_, fun hpending => ?_, fun hstatus => ?_⟩
  · exact h.onServer (h.knows_copy (.record hrecord)) (hvouches.stored hstatus)
  · obtain ⟨⟨b, n⟩, rfl, hm⟩ := hvouches.pending hpending
    obtain ⟨job, p, hp, hcreates⟩ := h.creates _ _ hm
    exact ⟨n, job, p, hp, hcreates⟩
  · obtain ⟨i, m, hm, hsame, hauthor⟩ := hvouches.made
    exact hsame.createdBy.trans ((h.accounted.made i m hm).2.trans (hauthor hstatus))

/-- After a lost response, the record says that the revision is a duplicate, and the server
holds it. -/
theorem FleetRun.statuses_travelled : ∃ (c : FleetConfig) (mine : RevisionRecord),
    mine ∈ (c.shared.stores ⟨⟨7⟩⟩).revisions ∧
    mine.syncStatus = .syncError .duplicateRevisionId ∧ c.shared.OnServer mine.revision ∧
    mine.revision.createdBy = ⟨⟨7⟩⟩ := by
  obtain ⟨c, hc, hmine, -⟩ := travelled
  obtain ⟨mine, hm, -, hstatus⟩ := exists_record hmine
  obtain ⟨hserver, -, hauthor⟩ := FleetRun.statuses roads_keeps hc ⟨⟨7⟩⟩ hm
  exact ⟨c, mine, hm, hstatus, hserver (.inr hstatus), hauthor (by rw [hstatus]; exact nofun)⟩

/-! ### What a call has returned -/

/-- **What a call has returned is not lost**: in every later state its client holds the revision,
and it is still pending as it was created, or the server holds it, or the server has rejected it
for another reason than that it has the revision. -/
theorem FleetRun.wrote (hkeeps : carriage.Keeps K) (hc : FleetRun carriage K users c)
    {i : SessionId} {repo : Repository} {call : Call}
    {draw : Draw} {id : RevisionId}
    (hi : c.procs i = some (.call repo call draw, .done (.ok (.wrote id)))) :
    id = draw.revisionId ∧ ∃ record ∈ (c.shared.stores i.1).revisions, ∃ m,
      (Job.call repo call draw).Creates m ∧ m.id = id ∧ record.revision.SameAs m ∧
      (record.syncStatus = .pending ∧ record.revision = m ∨ c.shared.OnServer m ∨
        ∃ reason, reason ≠ .duplicateRevisionId ∧ record.syncStatus = .syncError reason) := by
  have h := hc.inv hkeeps
  obtain ⟨m, hm, rfl⟩ : ∃ m, c.shared.made i = some m ∧ m.id = id := h.post i _ _ hi
  obtain ⟨job, p, hp, hcreates⟩ := h.creates i m hm
  rw [hi] at hp
  cases hp
  obtain ⟨record, hrecord, hid⟩ := h.accounted.held i m hm
  have hsame : record.revision.SameAs m :=
    h.knows_sameAs (h.knows_copy (.record hrecord)) ⟨i, m, hm, .refl m⟩ hid
  obtain ⟨honServer, -, -⟩ := hc.statuses hkeeps i.1 hrecord
  have hholds : c.shared.OnServer record.revision → c.shared.OnServer m := fun hserver =>
    h.onServer ⟨i, m, hm, .refl m⟩ ⟨_, hserver.row, hid⟩
  obtain ⟨heads, hfrom⟩ := hcreates.1
  refine ⟨hfrom.id, record, hrecord, m, hcreates, rfl, hsame, ?_⟩
  cases hstatus : record.syncStatus with
  | pending =>
    obtain ⟨j, -, hj⟩ := (h.accounted.records i.1 record hrecord).pending hstatus
    have hij : j = i :=
      h.distinct j i m.id (hid ▸ (h.accounted.made j _ hj).1) (h.accounted.made i m hm).1
    rw [hij, hm] at hj
    exact .inl ⟨rfl, (Option.some.inj hj).symm⟩
  | synced => exact .inr (.inl (hholds (honServer (.inl hstatus))))
  | syncError reason =>
    by_cases hreason : reason = .duplicateRevisionId
    · exact .inr (.inl (hholds (honServer (.inr (hreason ▸ hstatus)))))
    · exact .inr (.inr ⟨reason, hreason, rfl⟩)

/-- The saved trip is on the server. -/
theorem FleetRun.wrote_travelled : ∃ (c : FleetConfig) (repo : Repository) (call : Call)
    (draw : Draw) (m : Revision),
    c.procs (⟨⟨7⟩⟩, 0) = some (.call repo call draw, .done (.ok (.wrote ⟨⟨1⟩⟩))) ∧
    (Job.call repo call draw).Creates m ∧ m.id = ⟨⟨1⟩⟩ ∧ c.shared.OnServer m := by
  obtain ⟨c, hc, hmine, -, hwrote⟩ := travelled
  unfold wroteBy at hwrote
  split at hwrote
  · next repo call draw id hi =>
    cases hwrote
    obtain ⟨-, record, hrecord, m, hcreates, hid, -, hcases⟩ := FleetRun.wrote roads_keeps hc hi
    have hstatus : record.syncStatus = .syncError .duplicateRevisionId :=
      (record_singleton hmine hrecord).2
    refine ⟨c, repo, call, draw, m, hi, hcreates, hid, ?_⟩
    rcases hcases with ⟨hpending, -⟩ | hserver | ⟨reason, hreason, hother⟩
    · rw [hstatus] at hpending
      cases hpending
    · exact hserver
    · rw [hstatus] at hother
      exact absurd (SyncStatus.syncError.inj hother).symm hreason
  · cases hwrote

end Runs

end Rustend

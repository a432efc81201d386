import Permanode.Follow.Poll
import Permanode.System.Views

/-!
# Follow/Run — polls while the chain moves on

Between two polls the node's chain may replace a few blocks at its top and grow by any number.  The
window that is re-checked hangs from the *new* tip, so a replaced block that the growth has carried
out of the window is not looked at again (`Followed.stale`).

**`Followed.matches_iff`**: along a run of polls the record matches the node's chain after each poll
iff no poll finds a recorded block replaced further below the new tip than the window reaches.
-/

namespace Permanode

open Prog

/-- A change of the chain: at most 17 blocks at the top give way, and any number follows. -/
def View.Change (v v' : View) : Prop :=
  ∃ n ≤ 17, ∃ new : List BlockHeaderInfo, n ≤ new.length
    ∧ v'.headers = v.headers.take (v.headers.length - n) ++ new

/-- A poll: the database and the chain before it, the chain it meets, the clock, and the database it
leaves. -/
structure Poll where
  before : Db
  old : View
  view : View
  since : Instant
  after : Db

variable {N : Noid} {cfg : Config}

/-- **A run of completed polls** from a fresh database, the chain changing between them. -/
inductive Followed (N : Noid) (cfg : Config) : List Poll → View → Db → Prop
  | start (v : View) : Followed N cfg [] v Db.empty
  | poll {polls : List Poll} {v v' : View} {db db' : Db} {since : Instant}
    {tr : List (Db × Txn × Db)} (h : Followed N cfg polls v db) (hchange : v.Change v')
    (hpoll : Runs (v'.answers since) (Txn.exec N cfg) (pollOnce N cfg) db tr (.ok ()) db') :
    Followed N cfg (polls ++ [⟨db, v, v', since, db'⟩]) v' db'

/-- The canonical block on record at every height from the first of the archive to the tip is the
node's. -/
def Db.Matches (db : Db) (v : View) : Prop :=
  ∀ first, db.archiveFirstHeight = some first → ∀ k, first ≤ k → k ≤ v.tip →
    (db.canonicalHashAt k).map Prod.snd = v.hash k

/-- The clock of a poll shows no time before the entries it finds. -/
def Poll.Clocked (p : Poll) : Prop := ∀ s ∈ p.before.blockStatusLog.rows, s.observedAt ≤ p.since

/-- The blocks on record that were replaced since the last poll lie within the window. -/
def Poll.Noticed (depth : ℕ) (p : Poll) : Prop :=
  ∀ first, p.before.archiveFirstHeight = some first → ∀ k, first ≤ k → k ≤ p.old.tip →
    p.old.hash k ≠ p.view.hash k → p.view.tip ≤ k + depth

theorem View.Change.tip_le {v v' : View} (h : v.Change v') : v.tip ≤ v'.tip := by
  obtain ⟨n, -, new, hn, heq⟩ := h
  have hlen := congrArg List.length heq
  rw [List.length_append, List.length_take] at hlen
  have := v.length_eq
  have := v'.length_eq
  omega

namespace Db

/-- What a run of polls leaves: nothing yet, or a record from a first height to the tip. -/
structure Standing (v : View) (db : Db) : Prop where
  sound : db.Sound
  record : db.lastProcessed = none ∧ (∀ k, db.slice k = [])
    ∨ db.lastProcessed = some v.tip ∧ (∀ k, v.tip < k → db.slice k = [])
      ∧ ∃ first ≤ v.tip, (∀ k, k < first → db.slice k = [])
        ∧ ∀ k, first ≤ k → k ≤ v.tip → db.hashAt k ≠ none

variable {v v' : View} {db db' : Db}

theorem archiveFirstHeight_iff (hs : db.Sound) {first : ℕ} : db.archiveFirstHeight = some first ↔
    db.slice first ≠ [] ∧ ∀ k, k < first → db.slice k = [] := by
  have hfilter : db.blocks.rows.filter BlockRow.archived = db.blocks.rows :=
    List.filter_eq_self.mpr hs.archived
  rw [archiveFirstHeight, hfilter, List.min?_eq_some_iff, slice_ne_nil_iff, List.mem_map]
  refine and_congr_right fun _ => ⟨fun hle k hk => ?_, fun hnil k hk => ?_⟩
  · by_contra hne
    obtain ⟨b, hb, rfl⟩ := slice_ne_nil_iff.mp hne
    have := hle _ (List.mem_map_of_mem hb)
    omega
  · obtain ⟨b, hb, rfl⟩ := List.mem_map.mp hk
    by_contra hlt
    exact slice_ne_nil_iff.mpr ⟨b, hb, rfl⟩ (hnil _ (by omega))

/-- The first height of a record. -/
theorem first_eq (hs : db.Sound) {first f : ℕ} (hbelow : ∀ k, k < first → db.slice k = [])
    (hfirst : db.slice first ≠ []) : db.archiveFirstHeight = some f ↔ f = first := by
  rw [archiveFirstHeight_iff hs]
  constructor
  · rintro ⟨hf, hmin⟩
    rcases lt_trichotomy f first with hlt | heq | hlt
    · exact absurd (hbelow f hlt) hf
    · exact heq
    · exact absurd (hmin first hlt) hfirst
  · rintro rfl
    exact ⟨hfirst, hbelow⟩

theorem hashAt_of_nil {k : ℕ} (h : db.slice k = []) : db.hashAt k = none := by
  by_contra hne
  exact slice_ne_nil hne h

/-- **One poll**: the record stands again, and it matches the chain it has met exactly if every
block that was replaced lies within the window. -/
theorem Standing.poll {since : Instant} (h : db.Standing v) (hm : db.Matches v)
    (hchange : v.Change v') (hclock : ∀ s ∈ db.blockStatusLog.rows, s.observedAt ≤ since)
    {tr : List (Db × Txn × Db)}
    (hpoll : Runs (v'.answers since) (Txn.exec N cfg) (pollOnce N cfg) db tr (.ok ()) db') :
    db'.Standing v'
      ∧ (db'.Matches v' ↔ Poll.Noticed cfg.reorgCheckDepth ⟨db, v, v', since, db'⟩) := by
  have htip := hchange.tip_le
  have hwp : wp (followSetting N cfg v' since) (pollOnce N cfg)
      (onOk fun _ db' => ∃ low, (∀ last, db.lastProcessed = some last → low = last + 1)
        ∧ db.Polled v' cfg.reorgCheckDepth low db') db := by
    refine Follow.wp_pollOnce hclock (fun hn => ?_) fun last hl k hk => ?_
    · rcases h.record with ⟨-, hempty⟩ | ⟨hl, -⟩
      · exact hempty
      · exact absurd (hn.symm.trans hl) nofun
    · rcases h.record with ⟨hn, -⟩ | ⟨hl', habove, -⟩
      · exact absurd (hn.symm.trans hl) nofun
      · obtain rfl := Option.some.inj (hl.symm.trans hl')
        exact habove k hk
  obtain ⟨hs', low, hlow, hpolled⟩ :=
    post_of_runs (V := followSetting N cfg v' since) (fun _ => rfl) hpoll
      (fun _ _ => trivial) h.sound hwp
  rcases h.record with ⟨hn, hempty⟩ | ⟨hl, habove, first, hfirst, hbelow, hsome⟩
  · -- a fresh database: what is there now was ingested by this poll
    have hbelow : ∀ k, k < low → db'.slice k = [] := by
      intro k hk
      by_cases hwin : k ≤ v'.tip ∧ v'.tip ≤ k + cfg.reorgCheckDepth
      · exact ((hpolled.rechecked k hk hwin.1 hwin.2).2 (hashAt_of_nil (hempty k))).trans (hempty k)
      · exact (hpolled.others k (by omega)).trans (hempty k)
    have habove : ∀ k, v'.tip < k → db'.slice k = [] := fun k hk =>
      (hpolled.others k (Or.inr hk)).trans (hempty k)
    have hnew : ∀ k, low ≤ k → k ≤ v'.tip → db'.hashAt k ≠ none := fun k hk hle =>
      hpolled.ingested k hk hle ▸ v'.hash_ne_none hle
    refine ⟨⟨hs', ?_⟩, iff_of_true (fun f hf k hk hle => ?_) fun f hf => ?_⟩
    · by_cases hle : low ≤ v'.tip
      · exact Or.inr ⟨hpolled.progress.trans (if_pos hle), habove, low, hle, hbelow, hnew⟩
      · refine Or.inl ⟨hpolled.progress.trans ((if_neg hle).trans hn), fun k => ?_⟩
        by_cases hk : k < low
        · exact hbelow k hk
        · exact habove k (by omega)
    · have hlf : low ≤ f := by
        by_contra hlt
        exact ((archiveFirstHeight_iff hs').mp hf).1 (hbelow f (by omega))
      exact hpolled.ingested k (by omega) hle
    · exact absurd (hempty f) ((archiveFirstHeight_iff h.sound).mp hf).1
  · obtain rfl := hlow _ hl
    have hprogress : db'.lastProcessed = some v'.tip := by
      rw [hpolled.progress, hl]
      split_ifs with hle
      · rfl
      · exact congrArg some (by omega)
    have hsame : ∀ k, k ≤ v.tip → db.hashAt k = none → db'.slice k = db.slice k := by
      intro k hk hnone
      by_cases hwin : v'.tip ≤ k + cfg.reorgCheckDepth
      · exact (hpolled.rechecked k (by omega) (by omega) hwin).2 hnone
      · exact hpolled.others k (by omega)
    have hbelow' : ∀ k, k < first → db'.slice k = [] := fun k hk =>
      (hsame k (by omega) (hashAt_of_nil (hbelow k hk))).trans (hbelow k hk)
    have hrecord : ∀ k, first ≤ k → k ≤ v.tip →
        v'.tip ≤ k + cfg.reorgCheckDepth → db'.hashAt k = v'.hash k := fun k hk hle hwin =>
      (hpolled.rechecked k (by omega) (by omega) hwin).1 (hsome k hk hle)
    have hrest : ∀ k, k ≤ v.tip → ¬ v'.tip ≤ k + cfg.reorgCheckDepth →
        db'.hashAt k = db.hashAt k := fun k hle hwin =>
      hashAt_congr (hpolled.others k (by omega))
    have hsome' : ∀ k, first ≤ k → k ≤ v'.tip → db'.hashAt k ≠ none := by
      intro k hk hle
      by_cases hkv : k ≤ v.tip
      · by_cases hwin : v'.tip ≤ k + cfg.reorgCheckDepth
        · rw [hrecord k hk hkv hwin]
          exact v'.hash_ne_none hle
        · rw [hrest k hkv hwin]
          exact hsome k hk hkv
      · rw [hpolled.ingested k (by omega) hle]
        exact v'.hash_ne_none hle
    have hfst : db.archiveFirstHeight = some first :=
      (first_eq h.sound hbelow (slice_ne_nil (hsome first le_rfl hfirst))).mpr rfl
    have hfst' : db'.archiveFirstHeight = some first :=
      (first_eq hs' hbelow' (slice_ne_nil (hsome' first le_rfl (by omega)))).mpr rfl
    refine ⟨⟨hs', Or.inr ⟨hprogress, fun k hk => ?_, first, by omega, hbelow', hsome'⟩⟩, ?_⟩
    · exact (hpolled.others k (Or.inr hk)).trans (habove k (by omega))
    constructor
    · rintro hm' f hf k hk (hle : k ≤ v.tip) hne
      obtain rfl := Option.some.inj (hf.symm.trans hfst)
      by_contra hwin
      have hwin : ¬ v'.tip ≤ k + cfg.reorgCheckDepth := hwin
      refine hne ?_
      rw [← hm f hfst k hk hle, ← hm' f hfst' k hk (by omega)]
      exact (hrest k hle hwin).symm
    · intro hnot f hf k hk hle
      obtain rfl := Option.some.inj (hf.symm.trans hfst')
      by_cases hkv : k ≤ v.tip
      · by_cases hwin : v'.tip ≤ k + cfg.reorgCheckDepth
        · exact hrecord k hk hkv hwin
        · have heq : v.hash k = v'.hash k := by
            by_contra hne
            exact hwin (hnot f hfst k hk hkv hne)
          exact (hrest k hkv hwin).trans ((hm f hfst k hk hkv).trans heq)
      · exact hpolled.ingested k (by omega) hle

theorem standing_empty (v : View) : Db.empty.Standing v where
  sound := ⟨fun _ h => absurd h List.not_mem_nil, fun _ h => absurd h List.not_mem_nil⟩
  record := Or.inl ⟨rfl, fun _ => rfl⟩

theorem matches_empty (v : View) : Db.empty.Matches v := fun _ h => nomatch h

end Db

/-- **The record matches the chain after every poll iff every replaced block is noticed.** -/
theorem Followed.matches_iff {polls : List Poll} {v : View} {db : Db}
    (h : Followed N cfg polls v db) (hclock : ∀ p ∈ polls, p.Clocked) :
    ((∀ p ∈ polls, p.Noticed cfg.reorgCheckDepth) → db.Matches v)
      ∧ ((∀ p ∈ polls, p.after.Matches p.view) ↔ ∀ p ∈ polls, p.Noticed cfg.reorgCheckDepth) := by
  suffices hs : ((∀ p ∈ polls, p.after.Matches p.view) → db.Standing v ∧ db.Matches v)
      ∧ ((∀ p ∈ polls, p.after.Matches p.view) ↔
        ∀ p ∈ polls, p.Noticed cfg.reorgCheckDepth) from
    ⟨fun hn => (hs.1 (hs.2.mpr hn)).2, hs.2⟩
  induction h with
  | start v => exact ⟨fun _ => ⟨Db.standing_empty v, Db.matches_empty v⟩, by simp⟩
  | poll h hchange hpoll ih =>
    simp only [List.forall_mem_append, List.forall_mem_singleton] at hclock ⊢
    obtain ⟨hstand, hiff⟩ := ih hclock.1
    refine ⟨fun ⟨hall, hlast⟩ => ⟨?_, hlast⟩, fun ⟨hall, hlast⟩ => ⟨hiff.mp hall, ?_⟩,
      fun ⟨hall, hlast⟩ => ⟨hiff.mpr hall, ?_⟩⟩
    · obtain ⟨hst, hm⟩ := hstand hall
      exact (hst.poll hm hchange hclock.2 hpoll).1
    · obtain ⟨hst, hm⟩ := hstand hall
      exact (hst.poll hm hchange hclock.2 hpoll).2.mp hlast
    · obtain ⟨hst, hm⟩ := hstand (hiff.mpr hall)
      exact (hst.poll hm hchange hclock.2 hpoll).2.mpr hlast

/-! ## Two runs -/

/-- The chain of a list of blocks. -/
theorem chainAnswers_view {chain : List BlockDetailsInfo} (v : View) (now : Instant)
    (h : v.headers = chain.map BlockDetailsInfo.header) (q : Query) :
    v.answers now q (chainAnswers chain now q) := by
  match q with
  | .blockCount => exact congrArg (fun n => Except.ok (n - 1)) (by rw [h, List.length_map])
  | .blockHeader height => exact congrArg Except.ok (by rw [h, List.getElem?_map])
  | .blockDetails height => exact ⟨_, rfl, by rw [h, List.getElem?_map]⟩
  | .now => exact le_refl now
  | .block _ | .stateMap | .slot _ | .slotsByOwner _ | .unixTime | .rounds | .offer _ _
  | .rawOffer _ _ | .peerRawFrom | .peerSeen | .peerProof | .sightings => exact trivial

/-- A chain whose bodies the node has pruned: the hash of each height. -/
def bareChain (hashes : List String) : List BlockDetailsInfo :=
  hashes.zipIdx.map fun x => bareBlock x.2 x.1 ""

/-- A chain of blocks without bodies, as a view. -/
def bareView (hashes : List String) (h : hashes ≠ []) (hb : hashes.length ≤ 2 ^ 64) : View where
  headers := (bareChain hashes).map BlockDetailsInfo.header
  heights := by
    have hsnd : ((bareChain hashes).map BlockDetailsInfo.header).map BlockHeaderInfo.height
        = hashes.zipIdx.map Prod.snd := by
      rw [bareChain, List.map_map, List.map_map]
      rfl
    rw [hsnd, List.zipIdx_map_snd, List.range_eq_range', List.length_map, bareChain,
      List.length_map, List.length_zipIdx]
  nonempty := by simpa [bareChain] using h
  bound := by simpa [bareChain] using hb

/-- What a poll of a node with a bare chain comes to. -/
def pollBare (hashes : List String) (now : Instant) (n : ℕ) (db : Db) : Program Unit × Db :=
  play (Txn.exec Noid.sample {}) (fun _ => chainAnswers (bareChain hashes) now) n
    (pollOnce Noid.sample {}) db

/-- Block `A` at height 1. -/
def recordedHashes : List String := ["G", "A"]

/-- After a stop of the permanode `B` is there, with 31 blocks on top. -/
def grownHashes : List String := "G" :: "B" :: (List.range 31).map fun k => Nat.repr (k + 2)

/-- The node while the permanode runs. -/
def recordedView : View := bareView recordedHashes nofun (by decide)

/-- The node after its restart. -/
def grownView : View := bareView grownHashes nofun (by decide)

/-- The database after a poll of the first. -/
def recordedDb : Db := (pollBare recordedHashes 1 60 Db.empty).2

/-- The database after a poll of the second, on top of it. -/
def grownDb : Db := (pollBare grownHashes 2 600 recordedDb).2

/-- The polls before and after the stop. -/
def stalePolls : List Poll :=
  [⟨Db.empty, recordedView, recordedView, 1, recordedDb⟩,
    ⟨recordedDb, recordedView, grownView, 2, grownDb⟩]

theorem followed_stale : Followed Noid.sample {} stalePolls grownView grownDb := by
  have hfirst : Followed Noid.sample {} [⟨Db.empty, recordedView, recordedView, 1, recordedDb⟩]
      recordedView recordedDb :=
    (Followed.start recordedView).poll ⟨0, by decide, [], by decide, rfl⟩
      (runs_play (n := 60) (fun _ => chainAnswers_view _ 1 rfl) (by decide +kernel))
  exact hfirst.poll ⟨1, by decide, grownView.headers.tail, by decide, rfl⟩
    (runs_play (n := 600) (fun _ => chainAnswers_view _ 2 rfl) (by decide +kernel))

theorem clocked_stale : ∀ p ∈ stalePolls, p.Clocked := by
  simp only [stalePolls, List.forall_mem_cons]
  refine ⟨fun s hs => absurd hs List.not_mem_nil, ?_, nofun⟩
  unfold Poll.Clocked
  decide

/-- **A replaced block that is out of the window stays on record as canonical.** -/
theorem Followed.stale : ∃ polls v db, Followed Noid.sample {} polls v db
    ∧ (∀ p ∈ polls, p.Clocked) ∧ ¬ db.Matches v := by
  refine ⟨_, _, _, followed_stale, clocked_stale, fun h => ?_⟩
  exact absurd (h 1 (by decide +kernel) 1 le_rfl (by decide +kernel)) (by decide +kernel)

/-- In that run a poll finds a block replaced out of its window. -/
theorem Followed.matches_iff_stale : ∃ p ∈ stalePolls, ¬ p.Noticed 30 := by
  by_contra hall
  push Not at hall
  have hmatches : grownDb.Matches grownView :=
    (Followed.matches_iff followed_stale clocked_stale).1 hall
  exact absurd (hmatches 1 (by decide +kernel) 1 le_rfl (by decide +kernel)) (by decide +kernel)

end Permanode

import Permanode.Import.InTurn

/-!
# Import/Batch — rounds of bounded batches

A round of the peer backfill takes up the first `peerBackfillBatch` open gaps and the first
`peerBackfillBatch` blocks without raw bytes.  A candidate leaves its list only when it is filled,
so those a peer has nothing for stay at the head.

**`Peers.blockRound_iff`**: a round that changes nothing has left nothing behind that the peer could
give, unless both batches are full of what it cannot (`Peers.Blocked`).
-/

namespace Permanode

open Outcome Prog

/-- The part of a peer round that takes over blocks, with their raw bytes kept. -/
def blockRound (N : Noid) : Program Unit := do
  let _ ← fillFromPeers N (some peerBackfillBatch) true
  let processed ← Program.get Db.processedHeight
  fillRawFromPeers N (processed - getblockServingWindow) peerBackfillBatch

theorem peerRound_eq (N : Noid) : peerRound N true = (do
    blockRound N
    fillSeenFromPeers
    fillProofFromPeers) := by
  simp only [peerRound, blockRound, bind_bind, if_true]

namespace Peers

variable (N : Noid) (p : Peers)

/-! ## A single peer -/

/-- The peer has the block: raw bytes or a body that prove to be it. -/
def HasBlock (height : ℕ) (hash txRoot : String) : Prop :=
  (∃ bytes, p.raw 0 height hash = .ok bytes ∧ Proves N height hash txRoot (.raw bytes))
    ∨ ∃ body, p.body 0 height hash = .ok body ∧ Proves N height hash txRoot (.body body)

/-- The peer has raw bytes that prove to be the block. -/
def HasRaw (height : ℕ) (hash : String) : Prop :=
  ∃ bytes, p.raw 0 height hash = .ok bytes ∧ verify N bytes height hash = .ok ()

/-- **A single peer that answers every request**: with what is valid, or that it has nothing. -/
structure Answers (db : Db) : Prop where
  single : ∃ url, p.urls = [url]
  raw : ∀ height hash, p.raw 0 height hash = .notFound ∨ p.HasRaw N height hash
  body : ∀ height hash, p.body 0 height hash = .notFound ∨ ∃ body, p.body 0 height hash = .ok body
  proves : ∀ height hash id root, db.request height = some (hash, id, root) →
    (∀ bytes, p.raw 0 height hash = .ok bytes → Proves N height hash root (.raw bytes))
      ∧ ∀ body, p.body 0 height hash = .ok body → Proves N height hash root (.body body)
  /-- its status names a height no bytes are below -/
  status : ∃ low, p.rawFrom 0 = .ok low
    ∧ ∀ height hash bytes, p.raw 0 height hash = .ok bytes → ∃ l ∈ low, l ≤ height

/-! ### Gaps -/

section Gaps

variable {N : Noid} {p : Peers} {cfg : Config} {clock : ℕ → Instant} {rest : ∀ q : Query, q.Answer}
  {db : Db}

/-- What the peer's answer for a block is. -/
theorem Answers.fetchPeerRaw_eq (hp : p.Answers N db) (height : ℕ) (hash : String) :
    p.fetchPeerRaw N 0 height hash = .ok none ∧ p.raw 0 height hash = .notFound
      ∨ ∃ bytes, p.fetchPeerRaw N 0 height hash = .ok (some bytes)
        ∧ p.raw 0 height hash = .ok bytes ∧ verify N bytes height hash = .ok () := by
  rcases hp.raw height hash with hraw | ⟨bytes, hraw, hverify⟩
  · exact Or.inl ⟨by rw [fetchPeerRaw, hraw], hraw⟩
  · obtain ⟨_, hlen, -⟩ := bind_ok.mp hverify
    refine Or.inr ⟨bytes, ?_, hraw, hverify⟩
    rw [fetchPeerRaw, hraw]
    exact if_neg (bailIf_ok.mp hlen)

theorem Answers.fetchPeerOffer_eq (hp : p.Answers N db) (height : ℕ) (hash : String) :
    (p.fetchPeerOffer N 0 height hash = .ok none ∧ p.raw 0 height hash = .notFound
        ∧ p.body 0 height hash = .notFound)
      ∨ (∃ bytes, p.fetchPeerOffer N 0 height hash = .ok (some (.raw bytes))
        ∧ p.raw 0 height hash = .ok bytes)
      ∨ ∃ body, p.fetchPeerOffer N 0 height hash = .ok (some (.body body))
        ∧ p.body 0 height hash = .ok body := by
  rcases hp.fetchPeerRaw_eq height hash with ⟨hraw, hnone⟩ | ⟨bytes, hraw, hsome, -⟩
  · rcases hp.body height hash with hbody | ⟨body, hbody⟩
    · refine Or.inl ⟨?_, hnone, hbody⟩
      rw [fetchPeerOffer, hraw, fetchPeerBody, hbody]
      rfl
    · refine Or.inr (Or.inr ⟨body, ?_, hbody⟩)
      rw [fetchPeerOffer, hraw, fetchPeerBody, hbody]
      rfl
  · refine Or.inr (Or.inl ⟨bytes, ?_, hsome⟩)
    rw [fetchPeerOffer, hraw]
    rfl

/-- The peer is never left out. -/
theorem Answers.not_down (hp : p.Answers N db) : ∀ (earlier : List (ℕ × String)) (url : String),
    ¬ p.Down N earlier url
  | [], _ => id
  | gap :: earlier, url => by
      rintro (h | ⟨k, hurl, hfail, -⟩)
      · exact hp.not_down earlier url h
      · obtain ⟨peer, hpeer⟩ := hp.single
        have hk : k < p.urls.length := (List.getElem?_eq_some_iff.mp hurl).1
        rw [hpeer, List.length_singleton, Nat.lt_one_iff] at hk
        subst hk
        rcases hp.fetchPeerOffer_eq gap.1 gap.2 with ⟨h, -⟩ | ⟨_, h, -⟩ | ⟨_, h, -⟩
        all_goals exact nomatch h.symm.trans hfail

/-- A gap is filled in its turn iff the peer has the block. -/
theorem Answers.unshadowed_iff (hp : p.Answers N db) (earlier : List (ℕ × String)) {height id : ℕ}
    {hash root : String} (hreq : db.request height = some (hash, id, root)) :
    p.Unshadowed N earlier height hash root ↔ p.HasBlock N height hash root := by
  obtain ⟨url, hurl⟩ := hp.single
  obtain ⟨hraws, hbodies⟩ := hp.proves height hash id root hreq
  have hfirst : ∀ {offer}, p.fetchPeerOffer N 0 height hash = .ok (some offer) →
      FirstAnswer p.urls (fun place => p.fetchPeerOffer N place height hash) (p.Down N earlier) 0
        offer := by
    intro offer hoffer
    refine ⟨by rw [hurl]; exact Nat.one_pos, ?_, hoffer, fun j hj => absurd hj (Nat.not_lt_zero j)⟩
    rintro ⟨u, -, hdown | ⟨k, hk, -⟩⟩
    · exact hp.not_down earlier u hdown
    · exact Nat.not_lt_zero k hk
  constructor
  · rintro ⟨place, offer, ⟨hplace, -, hoffer, -⟩, hproves⟩
    rw [hurl, List.length_singleton, Nat.lt_one_iff] at hplace
    subst hplace
    rcases hp.fetchPeerOffer_eq height hash with ⟨h, -⟩ | ⟨bytes, h, hraw⟩ | ⟨body, h, hbody⟩
    · exact nomatch h.symm.trans hoffer
    · exact Or.inl ⟨bytes, hraw, hraws bytes hraw⟩
    · exact Or.inr ⟨body, hbody, hbodies body hbody⟩
  · intro hhas
    rcases hp.fetchPeerOffer_eq height hash with ⟨-, hraw, hbody⟩ | ⟨bytes, h, hraw⟩
      | ⟨body, h, hbody⟩
    · rcases hhas with ⟨_, h, -⟩ | ⟨_, h, -⟩
      · exact nomatch hraw.symm.trans h
      · exact nomatch hbody.symm.trans h
    · exact ⟨0, .raw bytes, hfirst h, hraws bytes hraw⟩
    · exact ⟨0, .body body, hfirst h, hbodies body hbody⟩

/-- The peer has none of the blocks that are asked for at these heights. -/
def LacksBlocks (N : Noid) (p : Peers) (db : Db) (heights : List ℕ) : Prop :=
  ∀ k ∈ heights, ∀ hash id root, db.request k = some (hash, id, root) → ¬ p.HasBlock N k hash root

/-- Gaps the peer has nothing for stay as they are. -/
theorem Answers.drive_lacked (hp : p.Answers N db) (cfg : Config) {source : String}
    (hs : source ≠ headerOnlySource) (resolution : String) (keep : Bool) :
    ∀ (heights : List ℕ) (earlier : List (ℕ × String)) (report : ImportReport) (w : Round),
    (∀ url, url ∈ w.down ↔ p.Down N earlier url) → p.LacksBlocks N db heights →
    ∃ report' w', drive (Txn.exec N cfg) (p.world N clock rest)
        (foldEach (fillHeight N source resolution keep) report heights) db w = (.ok report', db, w')
  | [], _, report, w, _, _ => ⟨report, w, rfl⟩
  | k :: heights, earlier, report, w, hdown, hlacks => by
      have hfit : Db.Fits N (p.world N clock rest) := fits_world
      obtain ⟨report₁, db₁, w₁, hdrive, hfilled⟩ :=
        Db.fillHeight_filledAt cfg hfit source resolution keep report k db w
      have hsame : db₁ = db := by
        rcases hreq : db.request k with _ | ⟨hash, id, root⟩
        · rcases hfilled with h | ⟨hash, id, root, _, _, _, _, h, -⟩
          · exact h
          · exact nomatch hreq.symm.trans h
        · refine (fillHeight_own hs hdown hreq hdrive).2 fun h => ?_
          exact hlacks k List.mem_cons_self hash id root hreq
            ((hp.unshadowed_iff earlier hreq).mp h)
      have hdown₁ : ∀ url, url ∈ w₁.down ↔ p.Down N ((db.asked [k]).reverse ++ earlier) url := by
        intro url
        have hw : w₁ = (drive (Txn.exec N cfg) (p.world N clock rest)
            (fillHeight N source resolution keep report k) db w).2.2 := by rw [hdrive]
        rw [hw]
        exact down_fillHeight hdown url
      rw [drive_foldEach_cons, hdrive, hsame]
      exact hp.drive_lacked cfg hs resolution keep heights _ report₁ w₁ hdown₁
        fun j hj => hlacks j (List.mem_cons_of_mem _ hj)

/-- **The gaps of a round**: those the peer has the block for have their body afterwards, and if
there is none the round ends with the closing maintenance. -/
theorem Answers.drive_fillFromPeers {p : Peers} (hp : p.Answers N db) (cfg : Config)
    (clock : ℕ → Instant) (rest : ∀ q : Query, q.Answer) (max : Option ℕ) (keep : Bool) :
    ∃ report db₁ w₁, drive (Txn.exec N cfg) (p.world N clock rest) (fillFromPeers N max keep) db {}
        = (.ok report, db₁, w₁)
      ∧ (p.LacksBlocks N db (db.takenHeights max) → ∃ now, db₁ = db.maintained now)
      ∧ ∀ k ∈ db.takenHeights max, ∀ hash id root, db.request k = some (hash, id, root) →
        p.HasBlock N k hash root → (db₁.capturedBlock k hash).isSome := by
  have hsource : "peer" ≠ headerOnlySource := by decide
  have hfit : Db.Fits N (p.world N clock rest) := fits_world
  have hdown : ∀ url, url ∈ ({} : Round).down ↔ p.Down N [] url :=
    fun url => iff_of_false List.not_mem_nil fun h => h
  let report : ImportReport := { gaps := (db.openGapHeights 0).length }
  obtain ⟨report₁, db₁, w₁, hdrive, -⟩ : ∃ report₁ db₁ w₁,
      drive (Txn.exec N cfg) (p.world N clock rest)
        (foldEach (fillHeight N "peer" "recovered from a peer permanode" keep) report
          (db.takenHeights max)) db {} = (.ok report₁, db₁, w₁) ∧ True :=
    Db.fillHeights_inv cfg hfit (fun _ _ _ _ _ _ => trivial) report db {} trivial
  refine ⟨{ report₁ with flagsCleared := db₁.flagsToClear },
    db₁.maintained (p.world N clock rest .now w₁).1, (p.world N clock rest .now w₁).2, ?_,
    fun hlacks => ?_,
    fun k hk hash id root hreq hhas => ?_⟩
  · rw [fillFromPeers, Db.drive_fillGaps, hdrive]
    rfl
  · obtain ⟨report₂, w₂, hsame⟩ := @Answers.drive_lacked N p clock rest db hp cfg _ hsource
      "recovered from a peer permanode" keep (db.takenHeights max) [] report {} hdown hlacks
    obtain ⟨-, rfl, -⟩ := (Prod.mk.inj (hdrive.symm.trans hsame)).imp_right Prod.mk.inj
    exact ⟨_, rfl⟩
  · obtain ⟨report₂, db₂, w₂, hrun, hrec, -⟩ := @recorded_iff N p clock rest cfg _ hsource
      "recovered from a peer permanode" keep _ _ _ _ (db.takenHeights max) [] report db {} hdown
      (db.nodup_takenHeights max) hk hreq
    obtain ⟨-, rfl, -⟩ := (Prod.mk.inj (hdrive.symm.trans hrun)).imp_right Prod.mk.inj
    rw [Db.capturedBlock_of_maintained]
    exact (hrec ((hp.unshadowed_iff _ hreq).mpr hhas)).1

end Gaps

end Peers

/-! ### Raw bytes -/

/-- Keeping raw bytes moves no other table, and no bytes that are there. -/
def Db.KeepsRaw (db db' : Db) : Prop :=
  ∃ raws, db' = { db with rawBlocks := raws } ∧ ∀ r ∈ db.rawBlocks.rows, r ∈ raws.rows

namespace Db.KeepsRaw

variable {db db₁ db₂ : Db}

theorem refl (db : Db) : db.KeepsRaw db := ⟨db.rawBlocks, rfl, fun _ h => h⟩

theorem trans (h₁ : db.KeepsRaw db₁) (h₂ : db₁.KeepsRaw db₂) : db.KeepsRaw db₂ := by
  obtain ⟨raws₁, rfl, hsub₁⟩ := h₁
  obtain ⟨raws₂, rfl, hsub₂⟩ := h₂
  exact ⟨raws₂, rfl, fun r hr => hsub₂ r (hsub₁ r hr)⟩

theorem blockId_eq (h : db.KeepsRaw db₁) : db₁.blockId = db.blockId := by
  obtain ⟨raws, rfl, -⟩ := h
  rfl

theorem capturedBlock_eq (h : db.KeepsRaw db₁) : db₁.capturedBlock = db.capturedBlock := by
  obtain ⟨raws, rfl, -⟩ := h
  rfl

theorem hasRawBlock (h : db.KeepsRaw db₁) {id : ℕ} (hraw : db.hasRawBlock id) :
    db₁.hasRawBlock id := by
  obtain ⟨raws, rfl, hsub⟩ := h
  obtain ⟨r, hr, hid⟩ := List.any_eq_true.mp hraw
  exact List.any_eq_true.mpr ⟨r, hsub r hr, hid⟩

end Db.KeepsRaw

theorem Db.hasRawBlock_insertRawBlock (db : Db) (id : ℕ) (codec : String) (rawLen : ℕ)
    (data : List UInt8) (source : String) (now : Instant) :
    (db.insertRawBlock id codec rawLen data source now).hasRawBlock id := by
  rcases Table.rows_insert_cases db.rawBlocks ⟨id, codec, rawLen, data, source, now⟩
    with ⟨hrows, -⟩ | ⟨hsame, r, hr, hclash⟩
  · refine List.any_eq_true.mpr ⟨⟨id, codec, rawLen, data, source, now⟩, ?_, decide_eq_true rfl⟩
    rw [Db.insertRawBlock, hrows]
    exact List.mem_append_right _ (List.mem_singleton_self _)
  · refine List.any_eq_true.mpr ⟨r, ?_, hclash⟩
    rw [Db.insertRawBlock, hsame]
    exact hr

/-- **What storing raw bytes does.** -/
theorem Db.keepsRaw_storeRaw {N : Noid} {db : Db} {height : ℕ} {hash source : String}
    {bytes : List UInt8} {now : Instant} {r : Db × Bool}
    (h : db.storeRaw N height hash bytes source now = .ok r) :
    db.KeepsRaw r.1 ∧ ∀ id, db.blockId height hash = some id → r.1.hasRawBlock id := by
  unfold Db.storeRaw at h
  rcases hid : db.blockId height hash with _ | id
  · rw [hid] at h
    obtain rfl := pure_ok.mp h
    exact ⟨.refl db, nofun⟩
  · rw [hid] at h
    dsimp only at h
    split_ifs at h with hraw
    · obtain rfl := pure_ok.mp h
      exact ⟨.refl db, fun _ he => Option.some.inj he ▸ hraw⟩
    · obtain ⟨-, -, h⟩ := bind_ok.mp h
      obtain rfl := pure_ok.mp h
      refine ⟨⟨_, rfl, fun r hr => Table.mem_insert_of_mem hr⟩, fun _ he => ?_⟩
      exact Option.some.inj he ▸ Db.hasRawBlock_insertRawBlock ..

namespace Peers

section Raw

variable {N : Noid} {p : Peers} {cfg : Config} {clock : ℕ → Instant} {rest : ∀ q : Query, q.Answer}
  {db₀ : Db}

/-- What the peer answers when raw bytes are asked for. -/
theorem Answers.world_rawOffer (hp : p.Answers N db₀) {height : ℕ} {hash : String}
    {answer : Option (List UInt8)} (h : p.fetchPeerRaw N 0 height hash = .ok answer) {w : Round}
    (hdown : w.down = []) : p.world N clock rest (.rawOffer height hash) w = (.ok answer, w) := by
  obtain ⟨url, hurl⟩ := hp.single
  obtain ⟨down, ticks⟩ := w
  obtain rfl : down = [] := hdown
  rcases answer with _ | bytes
  · simp only [world, hurl, askPeers, List.not_mem_nil, if_false, h]
  · simp only [world, hurl, askPeers, List.not_mem_nil, if_false, h]

/-- **One block without raw bytes**: it gets those the peer has. -/
theorem Answers.drive_fillRawOne (hp : p.Answers N db₀) (source : String) (block : ℕ × String)
    (db : Db) {w : Round} (hdown : w.down = []) :
    ∃ db' w', drive (Txn.exec N cfg) (p.world N clock rest) (fillRawOne N source block) db w
        = (.ok (), db', w')
      ∧ w'.down = [] ∧ db.KeepsRaw db' ∧ (¬ p.HasRaw N block.1 block.2 → db' = db)
      ∧ (p.HasRaw N block.1 block.2 → ∀ id, db.blockId block.1 block.2 = some id →
        db'.hasRawBlock id) := by
  rcases hp.fetchPeerRaw_eq block.1 block.2 with ⟨hfetch, hnone⟩ | ⟨bytes, hfetch, hraw, hverify⟩
  · refine ⟨db, w, ?_, hdown, .refl db, fun _ => rfl, ?_⟩
    · rw [fillRawOne, Program.ask, drive_send, hp.world_rawOffer hfetch hdown]
      rfl
    · rintro ⟨bytes, hraw, -⟩
      cases hnone.symm.trans hraw
  · let now := (p.world N clock rest .now w).1
    obtain ⟨r, hstore⟩ : ∃ r, db.storeRaw N block.1 block.2 bytes source now = .ok r :=
      Db.storeRaw_ok hverify source now
    obtain ⟨hkeeps, hkept⟩ := Db.keepsRaw_storeRaw hstore
    refine ⟨r.1, (p.world N clock rest .now w).2, ?_, hdown, hkeeps, fun hnot => ?_, fun _ => hkept⟩
    · rw [fillRawOne, Program.ask, drive_send, hp.world_rawOffer hfetch hdown]
      dsimp only
      rw [hverify]
      dsimp only
      have hexec : Txn.exec N cfg (.fillRaw block.1 block.2 bytes source now) db = .ok r.1 :=
        map_ok.mpr ⟨r, hstore, rfl⟩
      rw [Program.ask, drive_send, Program.commit, transact, drive, hexec]
      rfl
    · exact absurd ⟨bytes, hraw, hverify⟩ hnot

/-- **The blocks without raw bytes of a round.** -/
theorem Answers.drive_fillRaw (hp : p.Answers N db₀) (source : String) :
    ∀ (blocks : List (ℕ × String)) (db : Db) (w : Round), w.down = [] →
    ∃ db' w', drive (Txn.exec N cfg) (p.world N clock rest) (fillRaw N source blocks) db w
        = (.ok (), db', w')
      ∧ db.KeepsRaw db' ∧ ((∀ c ∈ blocks, ¬ p.HasRaw N c.1 c.2) → db' = db)
      ∧ ∀ c ∈ blocks, p.HasRaw N c.1 c.2 → ∀ id, db.blockId c.1 c.2 = some id → db'.hasRawBlock id
  | [], db, w, _ => ⟨db, w, rfl, .refl db, fun _ => rfl, fun _ h => absurd h List.not_mem_nil⟩
  | c :: blocks, db, w, hdown => by
      obtain ⟨db₁, w₁, hdrive, hdown₁, hkeeps₁, hsame₁, hkept₁⟩ :=
        @drive_fillRawOne N p cfg clock rest db₀ hp source c db w hdown
      obtain ⟨db₂, w₂, hrest, hkeeps₂, hsame₂, hkept₂⟩ :=
        hp.drive_fillRaw source blocks db₁ w₁ hdown₁
      refine ⟨db₂, w₂, ?_, hkeeps₁.trans hkeeps₂, fun hnone => ?_, fun b hb hraw id hid => ?_⟩
      · rw [fillRaw, drive_each_cons, hdrive]
        exact hrest
      · rw [hsame₂ fun b hb => hnone b (List.mem_cons_of_mem _ hb),
          hsame₁ (hnone c List.mem_cons_self)]
      · rcases List.mem_cons.mp hb with rfl | hb
        · exact hkeeps₂.hasRawBlock (hkept₁ hraw id hid)
        · exact hkept₂ b hb hraw id (by rw [hkeeps₁.blockId_eq]; exact hid)

end Raw

end Peers

/-! ## The closing maintenance -/

/-- The closing maintenance has nothing to do. -/
structure Db.Settled (db : Db) : Prop where
  flags : ∀ o ∈ db.txOutputs.rows, o.spentInGap = true → ¬ db.spentByRecordedInput ⊤ o.creationId
  gaps : ∀ g ∈ db.ingestGaps.rows, g.resolvedAt = none → ¬ db.bodyOnRecordAt g.height

theorem Db.maintained_of_settled {db : Db} (h : db.Settled) (now : Instant) :
    db.maintained now = db := by
  have hflags : db.clearSpentInGapWithRecordedSpend = db := by
    rw [clearSpentInGapWithRecordedSpend, flagOutputs, Table.modify_eq_self]
    intro o ho hp
    obtain ⟨hflag, hspent⟩ := of_decide_eq_true hp
    exact h.flags o ho hflag hspent
  rw [maintained, hflags, resolveGapsWithBodies, Table.modify_eq_self]
  intro g hg hp
  obtain ⟨hopen, hbody⟩ := of_decide_eq_true hp
  exact h.gaps g hg hopen hbody

theorem Db.settled_of_maintained {db db' : Db} {now : Instant}
    (hkeeps : (db.maintained now).KeepsRaw db') (h : db' = db) : db.Settled := by
  obtain ⟨raws, hraws, -⟩ := hkeeps
  rw [h] at hraws
  have hflags : db.txOutputs.rows = db.clearSpentInGapWithRecordedSpend.txOutputs.rows :=
    congrArg (fun d => d.txOutputs.rows) hraws
  have hgaps : db.ingestGaps.rows = (db.maintained now).ingestGaps.rows :=
    congrArg (fun d => d.ingestGaps.rows) hraws
  constructor
  · intro o ho hflag hspent
    refine Table.forall_not_of_updated_eq hflags.symm (fun o hp he => ?_) o ho
      (decide_eq_true ⟨hflag, hspent⟩)
    have hset : o.spentInGap = true := (of_decide_eq_true hp).1
    exact Bool.false_ne_true ((congrArg OutputRow.spentInGap he).trans hset)
  · intro g hg hopen hbody
    refine Table.forall_not_of_updated_eq hgaps.symm (fun g hp he => ?_) g hg
      (decide_eq_true ⟨hopen, hbody⟩)
    have hset : g.resolvedAt = none := (of_decide_eq_true hp).1
    exact nomatch (congrArg GapRow.resolvedAt he).trans hset

/-! ## A round -/

/-- The height from which the node still serves bodies. -/
def Db.servedFrom (db : Db) : ℕ := db.processedHeight - getblockServingWindow

namespace Peers

variable (N : Noid) (p : Peers)

/-- `blockRound` against these peers. -/
def runBlockRound (cfg : Config) (clock : ℕ → Instant) (rest : ∀ q : Query, q.Answer) (db : Db) :
    Except String Unit × Db × Round :=
  drive (Txn.exec N cfg) (p.world N clock rest) (blockRound N) db {}

/-- The blocks without raw bytes a round takes up, if it takes up `limit`. -/
def rawBatch (db : Db) (limit : ℕ) : List (ℕ × String) :=
  match p.lowestRaw with
  | some low =>
    if low < db.servedFrom then db.blocksMissingRaw low (db.servedFrom - 1) limit else []
  | none => []

/-- **The peer has nothing that is missing.** -/
structure Exhausted (db : Db) : Prop where
  gaps : p.LacksBlocks N db (db.openGapHeights 0)
  raw : ∀ b ∈ db.blocks.rows, db.isCanonical b.id → b.archived → b.bodyCaptured →
    ¬ db.hasRawBlock b.id → b.height < db.servedFrom → ¬ p.HasRaw N b.height b.hash

/-- The round has nothing to do: the peer has none of what is asked for, and the closing maintenance
finds nothing. -/
structure Idle (db : Db) : Prop where
  gaps : p.LacksBlocks N db (db.takenHeights (some peerBackfillBatch))
  raw : ∀ c ∈ p.rawBatch db peerBackfillBatch, ¬ p.HasRaw N c.1 c.2
  settled : db.Settled

/-- **The round is blocked**: it has nothing to do, and behind what it takes up there is something
that the peer has. -/
def Blocked (db : Db) : Prop :=
  p.Idle N db
    ∧ (¬ p.LacksBlocks N db ((db.openGapHeights 0).drop peerBackfillBatch)
      ∨ ∃ limit, ∃ c ∈ (p.rawBatch db limit).drop peerBackfillBatch, p.HasRaw N c.1 c.2)

variable {N : Noid} {p : Peers} {db : Db}

theorem Answers.lowestRaw_eq (hp : p.Answers N db) :
    (p.rawFrom 0 = .ok p.lowestRaw) ∧ p.silentPeers = [] := by
  obtain ⟨url, hurl⟩ := hp.single
  obtain ⟨low, hlow, -⟩ := hp.status
  rcases low with _ | low
  · simp [lowestRaw, silentPeers, hurl, hlow]
  · simp [lowestRaw, silentPeers, hurl, hlow]

/-- What is taken up for its raw bytes is a canonical block with a body and without them. -/
theorem mem_rawBatch {limit : ℕ} {c : ℕ × String} (hc : c ∈ p.rawBatch db limit) :
    ∃ b ∈ db.blocks.rows, c = (b.height, b.hash) ∧ db.isCanonical b.id ∧ b.archived ∧ b.bodyCaptured
      ∧ ¬ db.hasRawBlock b.id ∧ b.height < db.servedFrom := by
  unfold rawBatch at hc
  split at hc
  · split_ifs at hc with hbelow
    · obtain ⟨b, hb, rfl⟩ := List.mem_map.mp hc
      obtain ⟨hmem, hp⟩ := List.mem_filter.mp
        ((List.mem_insertionSort _).mp (List.mem_of_mem_take hb))
      obtain ⟨-, hhigh, hcap, harch, hraw, hcanon⟩ := of_decide_eq_true hp
      exact ⟨b, hmem, rfl, hcanon, harch, hcap, hraw, by omega⟩
    · exact absurd hc List.not_mem_nil
  · exact absurd hc List.not_mem_nil

/-- **A round leaves the database as it is iff it has nothing to do.** -/
theorem Answers.blockRound_eq_iff (hp : p.Answers N db) (cfg : Config) (clock : ℕ → Instant)
    (rest : ∀ q : Query, q.Answer) :
    (p.runBlockRound N cfg clock rest db).2.1 = db ↔ p.Idle N db := by
  obtain ⟨report, db₁, w₁, hgaps, hlacked, hcaptured⟩ :=
    hp.drive_fillFromPeers cfg clock rest (some peerBackfillBatch) true
  obtain ⟨hlow, hsilent⟩ := hp.lowestRaw_eq
  obtain ⟨db₂, w₂, hdrive, hkeeps, hsame, hkept⟩ := @drive_fillRaw N p cfg clock rest db hp "peer"
    (p.rawBatch db₁ peerBackfillBatch) db₁ { w₁ with down := p.silentPeers } hsilent
  have hrun : p.runBlockRound N cfg clock rest db = (.ok (), db₂, w₂) := by
    rw [runBlockRound, blockRound, drive_bind, hgaps, driveThen, Program.get, drive_query,
      fillRawFromPeers, Program.ask, drive_send]
    have hworld : p.world N clock rest .peerRawFrom w₁
        = (p.lowestRaw, { w₁ with down := p.silentPeers }) := rfl
    rw [hworld, ← hdrive, rawBatch]
    rcases p.lowestRaw with _ | low
    · rfl
    · dsimp only
      by_cases hbelow : low < db₁.servedFrom
      · have hserved : low < db₁.processedHeight - getblockServingWindow := hbelow
        rw [if_pos hbelow, if_pos hserved]
        rfl
      · have hserved : ¬ low < db₁.processedHeight - getblockServingWindow := hbelow
        rw [if_neg hbelow, if_neg hserved]
        rfl
  rw [hrun]
  change db₂ = db ↔ _
  constructor
  · intro hdb
    have hlacks : p.LacksBlocks N db (db.takenHeights (some peerBackfillBatch)) := by
      intro k hk hash id root hreq hhas
      have hcap := hcaptured k hk hash id root hreq hhas
      rw [← hkeeps.capturedBlock_eq, hdb, Db.not_captured_of_request hreq] at hcap
      exact Bool.false_ne_true hcap
    obtain ⟨now, rfl⟩ := hlacked hlacks
    have hsettled := Db.settled_of_maintained hkeeps hdb
    rw [Db.maintained_of_settled hsettled] at hkept
    refine ⟨hlacks, fun c hc hraw => ?_, hsettled⟩
    obtain ⟨b, hb, rfl, -, -, -, hnot, -⟩ := mem_rawBatch hc
    exact hnot (hdb ▸ hkept _ hc hraw b.id (Db.blockId_eq_some hb))
  · rintro ⟨hlacks, hraw, hsettled⟩
    obtain ⟨now, rfl⟩ := hlacked hlacks
    rw [Db.maintained_of_settled hsettled] at hsame
    exact hsame hraw

theorem lacksBlocks_append {heights others : List ℕ} :
    p.LacksBlocks N db (heights ++ others)
      ↔ p.LacksBlocks N db heights ∧ p.LacksBlocks N db others := List.forall_mem_append

/-- A round takes up the first of all the blocks without raw bytes. -/
theorem take_rawBatch_subset (p : Peers) (db : Db) (limit n : ℕ) :
    (p.rawBatch db limit).take n ⊆ p.rawBatch db n := by
  unfold rawBatch
  split
  · split_ifs
    · rw [Db.blocksMissingRaw, Db.blocksMissingRaw, ← List.map_take, List.take_take]
      exact List.map_subset _ (List.take_subset_take_left _ (min_le_left _ _))
    · rw [List.take_nil]
      exact List.Subset.refl _
  · rw [List.take_nil]
    exact List.Subset.refl _

/-- A block whose raw bytes the peer has is taken up at some length of the batch. -/
theorem Answers.exists_rawBatch (hp : p.Answers N db) {b : BlockRow} (hb : b ∈ db.blocks.rows)
    (hcanon : db.isCanonical b.id) (harch : b.archived) (hcap : b.bodyCaptured)
    (hraw : ¬ db.hasRawBlock b.id) (hserved : b.height < db.servedFrom)
    (hhas : p.HasRaw N b.height b.hash) : ∃ limit, (b.height, b.hash) ∈ p.rawBatch db limit := by
  obtain ⟨low, hlow, htrue⟩ := hp.status
  obtain ⟨bytes, hbytes, -⟩ := hhas
  obtain ⟨l, hl, hle⟩ := htrue b.height b.hash bytes hbytes
  have hlowest : p.lowestRaw = some l := by
    have h := (hp.lowestRaw_eq).1.symm.trans hlow
    rw [Option.mem_def.mp hl] at h
    exact Reply.ok.inj h
  have hbelow : l < db.servedFrom := by omega
  let missing := db.blocks.rows.filter fun b =>
    l ≤ b.height ∧ b.height ≤ db.servedFrom - 1 ∧ b.bodyCaptured ∧ b.archived
      ∧ ¬ db.hasRawBlock b.id ∧ db.isCanonical b.id
  have hmem : b ∈ missing := by
    refine List.mem_filter.mpr ⟨hb, decide_eq_true ⟨hle, by omega, hcap, harch, hraw, hcanon⟩⟩
  refine ⟨missing.length, ?_⟩
  rw [rawBatch, hlowest]
  dsimp only
  rw [if_pos hbelow]
  refine List.mem_map.mpr ⟨b, ?_, rfl⟩
  rw [List.take_of_length_le (List.length_insertionSort _ missing).le]
  exact (List.mem_insertionSort _).mpr hmem

/-- With nothing to do in its batches, a round leaves something behind iff it is blocked. -/
theorem Answers.exhausted_iff (hp : p.Answers N db) (hidle : p.Idle N db) :
    p.Exhausted N db ↔ ¬ p.Blocked N db := by
  have hall : db.openGapHeights 0
      = db.takenHeights (some peerBackfillBatch) ++ (db.openGapHeights 0).drop peerBackfillBatch :=
    (List.take_append_drop ..).symm
  constructor
  · rintro hex ⟨-, hleft | ⟨limit, c, hc, hraw⟩⟩
    · have hgaps := hex.gaps
      rw [hall, lacksBlocks_append] at hgaps
      exact hleft hgaps.2
    · obtain ⟨b, hb, rfl, hcanon, harch, hcap, hnot, hserved⟩ :=
        mem_rawBatch (List.mem_of_mem_drop hc)
      exact hex.raw b hb hcanon harch hcap hnot hserved hraw
  · intro hblocked
    obtain ⟨hgaps, hraws⟩ := not_or.mp fun h => hblocked ⟨hidle, h⟩
    constructor
    · rw [hall, lacksBlocks_append]
      exact ⟨hidle.gaps, not_not.mp hgaps⟩
    · intro b hb hcanon harch hcap hnot hserved hraw
      obtain ⟨limit, hmem⟩ := hp.exists_rawBatch hb hcanon harch hcap hnot hserved hraw
      rw [← List.take_append_drop peerBackfillBatch (p.rawBatch db limit)] at hmem
      rcases List.mem_append.mp hmem with hmem | hmem
      · exact hidle.raw _ (take_rawBatch_subset p db limit _ hmem) hraw
      · exact hraws ⟨limit, _, hmem, hraw⟩

/-- **A round that changes nothing has left nothing behind that the peer has, iff it was not
blocked.** -/
theorem blockRound_iff (cfg : Config) (clock : ℕ → Instant) (rest : ∀ q : Query, q.Answer)
    (hp : p.Answers N db) :
    ((p.runBlockRound N cfg clock rest db).2.1 = db → p.Exhausted N db) ↔ ¬ p.Blocked N db := by
  rw [hp.blockRound_eq_iff]
  constructor
  · intro h hblocked
    exact (hp.exhausted_iff hblocked.1).mp (h hblocked.1) hblocked
  · exact fun hnot hidle => (hp.exhausted_iff hidle).mpr hnot

/-! ### A peer that joined late -/

/-- A block with its header on record. -/
def lateBlock (n : ℕ) : BlockRow :=
  Db.headerRow 1 { sampleHeader with height := n, hash := "late" } false none 100

/-- An open gap at every height up to `n`, and a block at none but the last. -/
def manyGaps (n : ℕ) : Db :=
  { Db.empty with
    blocks := Table.insertOrIgnore ∅ (lateBlock n)
    ingestGaps :=
      { rows := (List.range (n + 1)).map fun k => ⟨k, none, 100, "pruned", none, none⟩
        unique := List.pairwise_map.mpr (List.nodup_range.imp fun h => decide_eq_false h) } }
    |>.appendStatus 1 .canonical 100

/-- A peer that has the last block, and no other. -/
def latePeer (n : ℕ) : Peers where
  urls := ["http://a"]
  raw _ _ _ := .notFound
  body _ height _ := if height = n then .ok sampleBody else .notFound
  rawFrom _ := .ok none

theorem openGapHeights_manyGaps (n : ℕ) : (manyGaps n).openGapHeights 0 = List.range (n + 1) := by
  have hrows : (manyGaps n).ingestGaps.rows
      = (List.range (n + 1)).map fun k => ⟨k, none, 100, "pruned", none, none⟩ := rfl
  rw [Db.openGapHeights, hrows, List.filter_map, List.map_map]
  have hall : (List.range (n + 1)).filter ((fun g : GapRow => decide (g.resolvedAt = none
      ∧ 0 ≤ g.height)) ∘ fun k => ⟨k, none, 100, "pruned", none, none⟩) = List.range (n + 1) :=
    List.filter_eq_self.mpr fun k _ => by simp
  rw [hall]
  have hid : GapRow.height ∘ (fun k => ⟨k, none, 100, "pruned", none, none⟩) = id := rfl
  rw [hid, List.map_id]
  exact List.pairwise_le_range.insertionSort_eq

theorem request_manyGaps {n k id : ℕ} {hash root : String}
    (h : (manyGaps n).request k = some (hash, id, root)) : k = n ∧ root = sampleHeader.txRoot := by
  obtain ⟨b, hb, -, rfl, -, -, -, rfl⟩ := Db.mem_of_request h
  obtain rfl : b = lateBlock n := List.mem_singleton.mp hb
  exact ⟨rfl, rfl⟩

theorem latePeer_body (n : ℕ) (hash : String) : (latePeer n).body 0 n hash = .ok sampleBody :=
  if_pos rfl

theorem answers_latePeer (n : ℕ) : (latePeer n).Answers Noid.sample (manyGaps n) where
  single := ⟨_, rfl⟩
  raw _ _ := Or.inl rfl
  body height _ := by
    by_cases h : height = n
    · exact Or.inr ⟨sampleBody, if_pos h⟩
    · exact Or.inl (if_neg h)
  proves height hash id root hreq := by
    obtain ⟨rfl, rfl⟩ := request_manyGaps hreq
    refine ⟨nofun, fun body hbody => ?_⟩
    obtain rfl := Reply.ok.inj ((latePeer_body height hash).symm.trans hbody)
    exact proves_sampleBody height hash
  status := ⟨none, rfl, nofun⟩

theorem idle_latePeer : (latePeer peerBackfillBatch).Idle Noid.sample
    (manyGaps peerBackfillBatch) where
  gaps k hk hash id root hreq := by
    obtain ⟨rfl, -⟩ := request_manyGaps hreq
    rw [Db.takenHeights, openGapHeights_manyGaps, List.take_range] at hk
    have hlt := List.mem_range.mp hk
    omega
  raw := nofun
  settled := ⟨nofun, fun g _ _ => by
    have hnone : (manyGaps peerBackfillBatch).bodyOnRecordAt g.height = false := by
      refine List.any_eq_false.mpr fun b hb => ?_
      obtain rfl : b = lateBlock peerBackfillBatch := List.mem_singleton.mp hb
      simp [lateBlock, Db.headerRow]
    rw [hnone]
    exact Bool.false_ne_true⟩

/-- **A peer's body is not asked for behind five hundred gaps it has nothing for**, in this round
and every later one. -/
theorem late_block_never_asked : ¬ ∀ (N : Noid) (p : Peers) (cfg : Config) (clock : ℕ → Instant)
    (rest : ∀ q : Query, q.Answer) (db : Db), p.Answers N db →
      (p.runBlockRound N cfg clock rest db).2.1 = db → p.Exhausted N db := by
  intro h
  have hp := answers_latePeer peerBackfillBatch
  have hsame : ((latePeer peerBackfillBatch).runBlockRound Noid.sample {} id (chainAnswers [] 0)
      (manyGaps peerBackfillBatch)).2.1 = manyGaps peerBackfillBatch :=
    (hp.blockRound_eq_iff {} id (chainAnswers [] 0)).mpr idle_latePeer
  have hex := h Noid.sample (latePeer peerBackfillBatch) {} id (chainAnswers [] 0)
    (manyGaps peerBackfillBatch) hp hsame
  have hreq : (manyGaps peerBackfillBatch).request peerBackfillBatch
      = some ("late", 1, sampleHeader.txRoot) := by decide +kernel
  refine hex.gaps peerBackfillBatch ?_ _ _ _ hreq
    (Or.inr ⟨sampleBody, latePeer_body .., proves_sampleBody peerBackfillBatch "late"⟩)
  rw [openGapHeights_manyGaps]
  exact List.mem_range.mpr (Nat.lt_succ_self _)

/-- A round with these gaps and this peer. -/
theorem blockRound_iff_late :
    (((latePeer peerBackfillBatch).runBlockRound Noid.sample {} id (chainAnswers [] 0)
        (manyGaps peerBackfillBatch)).2.1 = manyGaps peerBackfillBatch
          → (latePeer peerBackfillBatch).Exhausted Noid.sample (manyGaps peerBackfillBatch))
      ↔ ¬ (latePeer peerBackfillBatch).Blocked Noid.sample (manyGaps peerBackfillBatch) :=
  blockRound_iff {} id (chainAnswers [] 0) (answers_latePeer peerBackfillBatch)

end Peers

end Permanode

import Permanode.Import.Filling
import Permanode.Import.Peers
import Permanode.Import.RoundTrip
import Permanode.System.Views

/-!
# Import/InTurn — which peer's answer a gap gets

Peers are asked in turn, and the first that answers with data is the source's answer, verified or
not.  Which one that is can be told from the peers' behaviour (`FirstAnswer`), and so can who is
left out of a round (`Peers.Down`).

**`Peers.fillFromPeers_iff`**: a gap some peer has a body for is filled exactly if the first answer
it gets passes the checks — bad data of one peer shadows every later one.
-/

namespace Permanode

open Outcome Prog

/-! ## One gap -/

section Asking

variable {β : Type} (urls : List String) (fetch : ℕ → Except PeerError (Option β))
  (down : String → Prop)

/-- The place is skipped: its peer is left out already, or failed at an earlier place. -/
def Skipped (j : ℕ) : Prop :=
  ∃ url, urls[j]? = some url
    ∧ (down url ∨ ∃ k < j, urls[k]? = some url ∧ fetch k = .error .unreachable)

/-- The place gives no answer of data. -/
def PassedOver (j : ℕ) : Prop :=
  Skipped urls fetch down j ∨ fetch j = .ok none ∨ fetch j = .error .unreachable

/-- The place `k` is the first that answers with data, and its answer is `a`. -/
def FirstAnswer (k : ℕ) (a : β) : Prop :=
  k < urls.length ∧ ¬ Skipped urls fetch down k ∧ fetch k = .ok (some a)
    ∧ ∀ j < k, PassedOver urls fetch down j

/-- The peer is left out afterwards, because it failed when it was asked. -/
def FailedNow (url : String) : Prop :=
  ∃ k, urls[k]? = some url ∧ fetch k = .error .unreachable
    ∧ ∀ j < k, PassedOver urls fetch down j

variable {urls fetch down}

/-- A place that is asked and answers with data, good or bad, is not passed over. -/
theorem not_passedOver {i : ℕ} (hskip : ¬ Skipped urls fetch down i)
    (hdata : fetch i = .error .bad ∨ ∃ a, fetch i = .ok (some a)) :
    ¬ PassedOver urls fetch down i := by
  rintro (h | h | h)
  · exact hskip h
  · rcases hdata with hd | ⟨a, hd⟩ <;> rw [hd] at h <;> exact nomatch h
  · rcases hdata with hd | ⟨a, hd⟩ <;> rw [hd] at h <;> exact nomatch h

/-- The first answer is at the first place that is not passed over. -/
theorem FirstAnswer.eq {k i : ℕ} {a : β} (h : FirstAnswer urls fetch down k a)
    (hpassed : ∀ j < i, PassedOver urls fetch down j) (hi : ¬ PassedOver urls fetch down i) :
    k = i := by
  obtain ⟨-, hskip, hdata, hall⟩ := h
  rcases lt_trichotomy k i with hlt | rfl | hgt
  · exact absurd (hpassed k hlt) (not_passedOver hskip (Or.inr ⟨a, hdata⟩))
  · rfl
  · exact absurd (hall i hgt) hi

/-- **Asking in turn**, from a place on: the answer is the first one, and the peers that failed on
the way are left out. -/
theorem askPeers_from : ∀ (rest : List String) (i : ℕ) (cur : List String), urls.drop i = rest →
    (∀ url, url ∈ cur ↔ down url ∨ ∃ k < i, urls[k]? = some url ∧ fetch k = .error .unreachable) →
    (∀ j < i, PassedOver urls fetch down j) →
    (∀ a, (Peers.askPeers fetch i rest cur).1 = .ok (some a) ↔ ∃ k, FirstAnswer urls fetch down k a)
      ∧ ∀ url, url ∈ (Peers.askPeers fetch i rest cur).2 ↔ down url ∨ FailedNow urls fetch down url
  | [], i, cur, hrest, hcur, hpassed => by
      have hlen : urls.length ≤ i := List.drop_eq_nil_iff.mp hrest
      refine ⟨fun a => iff_of_false nofun ?_, fun url => (hcur url).trans (or_congr_right ?_)⟩
      · rintro ⟨k, hk, hskip, hfetch, -⟩
        exact not_passedOver hskip (Or.inr ⟨a, hfetch⟩) (hpassed k (by omega))
      · constructor
        · rintro ⟨k, hk, hurl, hfail⟩
          exact ⟨k, hurl, hfail, fun j hj => hpassed j (hj.trans hk)⟩
        · rintro ⟨k, hurl, hfail, -⟩
          have hlt : k < urls.length := (List.getElem?_eq_some_iff.mp hurl).1
          exact ⟨k, by omega, hurl, hfail⟩
  | url :: rest, i, cur, hrest, hcur, hpassed => by
      have hi : urls[i]? = some url := by
        have hhead := congrArg List.head? hrest
        rwa [List.head?_drop, List.head?_cons] at hhead
      have hnext : urls.drop (i + 1) = rest := by
        have htail := congrArg List.tail hrest
        rwa [List.tail_drop, List.tail_cons] at htail
      have hskip : Skipped urls fetch down i ↔ url ∈ cur := by
        rw [hcur url]
        exact ⟨fun ⟨u, hu, h⟩ => by rw [hi] at hu; exact Option.some.inj hu ▸ h,
          fun h => ⟨url, hi, h⟩⟩
      have hpass : ∀ {j}, PassedOver urls fetch down i → j < i + 1 → PassedOver urls fetch down j :=
        fun h hj => (Nat.lt_succ_iff_lt_or_eq.mp hj).elim (hpassed _) fun he => he ▸ h
      rw [Peers.askPeers]
      by_cases hmem : url ∈ cur
      · rw [if_pos hmem]
        refine askPeers_from rest (i + 1) cur hnext (fun u => (hcur u).trans ?_)
          fun j hj => hpass (Or.inl (hskip.mpr hmem)) hj
        constructor
        · rintro (h | ⟨k, hk, h⟩)
          · exact Or.inl h
          · exact Or.inr ⟨k, by omega, h⟩
        · rintro (h | ⟨k, hk, hu, hfail⟩)
          · exact Or.inl h
          · rcases Nat.lt_succ_iff_lt_or_eq.mp hk with hk | rfl
            · exact Or.inr ⟨k, hk, hu, hfail⟩
            · rw [hi] at hu
              exact Option.some.inj hu ▸ (hcur url).mp hmem
      · rw [if_neg hmem]
        have hsame : (fetch i = .ok none) → ∀ u, u ∈ cur ↔ down u
            ∨ ∃ k < i + 1, urls[k]? = some u ∧ fetch k = .error .unreachable := by
          intro hnone u
          refine (hcur u).trans (or_congr_right ⟨?_, ?_⟩)
          · rintro ⟨k, hk, h⟩
            exact ⟨k, by omega, h⟩
          · rintro ⟨k, hk, hu, hfail⟩
            rcases Nat.lt_succ_iff_lt_or_eq.mp hk with hk | rfl
            · exact ⟨k, hk, hu, hfail⟩
            · rw [hnone] at hfail
              exact nomatch hfail
        -- an answer of data, good or bad, ends the asking
        have hends : ∀ u, ¬ PassedOver urls fetch down i →
            (u ∈ cur ↔ down u ∨ FailedNow urls fetch down u) := by
          intro u hnot
          refine (hcur u).trans (or_congr_right ⟨?_, ?_⟩)
          · rintro ⟨k, hk, hu, hfail⟩
            exact ⟨k, hu, hfail, fun j hj => hpassed j (hj.trans hk)⟩
          · rintro ⟨k, hu, hfail, hall⟩
            refine ⟨k, ?_, hu, hfail⟩
            by_contra hge
            rcases (not_lt.mp hge).lt_or_eq with hlt | rfl
            · exact hnot (hall i hlt)
            · exact hnot (Or.inr (Or.inr hfail))
        rcases hfetch : fetch i with (_ | _) | (_ | answer)
        · dsimp only
          refine askPeers_from rest (i + 1) (cur ++ [url]) hnext (fun u => ?_)
            fun j hj => hpass (Or.inr (Or.inr hfetch)) hj
          rw [List.mem_append, List.mem_singleton, hcur u]
          constructor
          · rintro ((h | ⟨k, hk, h⟩) | rfl)
            · exact Or.inl h
            · exact Or.inr ⟨k, by omega, h⟩
            · exact Or.inr ⟨i, Nat.lt_succ_self i, hi, hfetch⟩
          · rintro (h | ⟨k, hk, hu, hfail⟩)
            · exact Or.inl (Or.inl h)
            · rcases Nat.lt_succ_iff_lt_or_eq.mp hk with hk | rfl
              · exact Or.inl (Or.inr ⟨k, hk, hu, hfail⟩)
              · rw [hi] at hu
                exact Or.inr (Option.some.inj hu).symm
        · dsimp only
          have hnot := not_passedOver (mt hskip.mp hmem) (Or.inl hfetch)
          refine ⟨fun a => iff_of_false nofun ?_, fun u => hends u hnot⟩
          rintro ⟨k, hk⟩
          obtain rfl := hk.eq hpassed hnot
          rw [hk.2.2.1] at hfetch
          exact nomatch hfetch
        · exact askPeers_from rest (i + 1) cur hnext (hsame hfetch)
            fun j hj => hpass (Or.inr (Or.inl hfetch)) hj
        · dsimp only
          have hnot := not_passedOver (mt hskip.mp hmem) (Or.inr ⟨answer, hfetch⟩)
          refine ⟨fun a => ⟨fun h => ?_, ?_⟩, fun u => hends u hnot⟩
          · obtain rfl := Option.some.inj (Except.ok.inj h)
            exact ⟨i, (List.getElem?_eq_some_iff.mp hi).1, mt hskip.mp hmem, hfetch, hpassed⟩
          · rintro ⟨k, hk⟩
            obtain rfl := hk.eq hpassed hnot
            rw [Option.some.inj (Except.ok.inj (hfetch.symm.trans hk.2.2.1))]

/-- **Asking in turn.** -/
theorem askPeers_spec {left : List String} (hleft : ∀ url, url ∈ left ↔ down url) :
    (∀ a, (Peers.askPeers fetch 0 urls left).1 = .ok (some a) ↔
      ∃ k, FirstAnswer urls fetch down k a)
      ∧ ∀ url, url ∈ (Peers.askPeers fetch 0 urls left).2
        ↔ down url ∨ FailedNow urls fetch down url := by
  refine askPeers_from urls 0 left rfl (fun url => (hleft url).trans ?_)
    fun j hj => absurd hj (Nat.not_lt_zero j)
  exact (or_iff_left fun ⟨k, hk, _⟩ => Nat.not_lt_zero k hk).symm

end Asking

/-! ## A round -/

namespace Peers

variable (N : Noid) (p : Peers)

/-- The peers left out once gaps (the latest first) have been asked for. -/
def Down : List (ℕ × String) → String → Prop
  | [], _ => False
  | gap :: earlier, url => Down earlier url
    ∨ FailedNow p.urls (fun place => p.fetchPeerOffer N place gap.1 gap.2) (Down earlier) url

/-- The offer proves to be the body of the block. -/
def Proves (height : ℕ) (hash txRoot : String) (offer : Offer) : Prop :=
  ∃ body bytes, judgeOffer N height hash txRoot (.ok (some offer)) = .accepted body bytes

/-- Some peer would answer for the block with what proves to be its body. -/
def Offered (height : ℕ) (hash txRoot : String) : Prop :=
  ∃ place < p.urls.length, ∃ offer, p.fetchPeerOffer N place height hash = .ok (some offer)
    ∧ Proves N height hash txRoot offer

/-- The first peer that answers for the block with data, once the `earlier` gaps have been asked
for, answers with what proves to be its body. -/
def Unshadowed (earlier : List (ℕ × String)) (height : ℕ) (hash txRoot : String) : Prop :=
  ∃ place offer, FirstAnswer p.urls (fun place => p.fetchPeerOffer N place height hash)
    (p.Down N earlier) place offer ∧ Proves N height hash txRoot offer

end Peers

/-- The gaps that are asked for among heights, in order. -/
def Db.asked (db : Db) (heights : List ℕ) : List (ℕ × String) :=
  heights.filterMap fun k => (db.request k).map fun r => (k, r.1)

namespace Peers

variable {N : Noid} {p : Peers} {cfg : Config} {clock : ℕ → Instant} {rest : ∀ q : Query, q.Answer}

theorem fits_world : Db.Fits N (p.world N clock rest) := by
  intro height hash w bytes h
  have hleft : ∀ url, url ∈ w.down ↔ (fun url => url ∈ w.down) url := fun _ => Iff.rfl
  obtain ⟨k, -, -, hfetch, -⟩ := ((askPeers_spec hleft).1 _).mp h
  simp only [fetchPeerOffer, bind_ok] at hfetch
  obtain ⟨r, hraw, h⟩ := hfetch
  unfold fetchPeerRaw at hraw
  rcases r with _ | raw
  · simp only [bind_ok, pure_ok, Option.map_eq_some_iff] at h
    obtain ⟨_, -, _, -, h⟩ := h
    exact nomatch h
  · obtain rfl := Offer.raw.inj (Option.some.inj (pure_ok.mp h))
    split at hraw
    · split_ifs at hraw with hlen
      obtain rfl := Option.some.inj (Except.ok.inj hraw)
      exact not_lt.mp hlen
    all_goals exact nomatch hraw

/-- What the peers answer for a gap passes the checks iff the first answer does. -/
theorem accepted_iff {earlier : List (ℕ × String)} {w : Round}
    (hdown : ∀ url, url ∈ w.down ↔ p.Down N earlier url) (height : ℕ) (hash txRoot : String) :
    (∃ body bytes, judgeOffer N height hash txRoot
        (p.world N clock rest (.offer height hash) w).1 = .accepted body bytes)
      ↔ p.Unshadowed N earlier height hash txRoot := by
  have hspec : ∀ offer, (p.world N clock rest (.offer height hash) w).1 = .ok (some offer)
      ↔ ∃ place, FirstAnswer p.urls (fun place => p.fetchPeerOffer N place height hash)
        (p.Down N earlier) place offer := (askPeers_spec hdown).1
  constructor
  · rintro ⟨body, bytes, hjudge⟩
    rcases hanswer : (p.world N clock rest (.offer height hash) w).1 with e | _ | offer
    · rw [hanswer] at hjudge
      exact nomatch hjudge
    · rw [hanswer] at hjudge
      exact nomatch hjudge
    · obtain ⟨place, hfirst⟩ := (hspec offer).mp hanswer
      exact ⟨place, offer, hfirst, body, bytes, hanswer ▸ hjudge⟩
  · rintro ⟨place, offer, hfirst, body, bytes, hjudge⟩
    have hanswer : (p.world N clock rest (.offer height hash) w).1 = .ok (some offer) :=
      (hspec offer).mpr ⟨place, hfirst⟩
    exact ⟨body, bytes, hanswer ▸ hjudge⟩

/-- The peers left out after a height has been taken up. -/
theorem down_fillHeight {source resolution : String} {keep : Bool} {report : ImportReport} {k : ℕ}
    {earlier : List (ℕ × String)} {db : Db} {w : Round}
    (hdown : ∀ url, url ∈ w.down ↔ p.Down N earlier url) (url : String) :
    url ∈ (drive (Txn.exec N cfg) (p.world N clock rest)
        (fillHeight N source resolution keep report k) db w).2.2.down
      ↔ p.Down N ((db.asked [k]).reverse ++ earlier) url := by
  have hasked : ∀ hash : String, url ∈ (p.world N clock rest (.offer k hash) w).2.down
      ↔ p.Down N ((k, hash) :: earlier) url := fun hash => (askPeers_spec hdown).2 url
  rw [Db.drive_fillHeight]
  rcases hreq : db.request k with _ | ⟨hash, blockId, root⟩
  · have hnone : db.asked [k] = [] := by simp [Db.asked, hreq]
    rw [hnone]
    exact hdown url
  · have hone : db.asked [k] = [(k, hash)] := by simp [Db.asked, hreq]
    rw [hone]
    dsimp only
    rcases judgeOffer N k hash root (p.world N clock rest (.offer k hash) w).1
      with ⟨body, bytes⟩ | _ | _
    · dsimp only
      rcases db.fillBody N k hash blockId body bytes source resolution keep
        (p.world N clock rest .now (p.world N clock rest (.offer k hash) w).2).1 with e | db'
      · exact hasked hash
      · exact hasked hash
    · exact hasked hash
    · exact hasked hash

/-- The gap of a height when its turn comes. -/
theorem fillHeight_own {source resolution : String} (hs : source ≠ headerOnlySource) {keep : Bool}
    {report report₁ : ImportReport} {height id : ℕ} {hash root : String}
    {earlier : List (ℕ × String)} {db db₁ : Db} {w w₁ : Round}
    (hdown : ∀ url, url ∈ w.down ↔ p.Down N earlier url)
    (hreq : db.request height = some (hash, id, root))
    (hdrive : drive (Txn.exec N cfg) (p.world N clock rest)
      (fillHeight N source resolution keep report height) db w = (.ok report₁, db₁, w₁)) :
    (p.Unshadowed N earlier height hash root → db₁.Recorded height hash)
      ∧ (¬ p.Unshadowed N earlier height hash root → db₁ = db) := by
  have haccepted : (∃ body bytes, judgeOffer N height hash root
      (p.world N clock rest (.offer height hash) w).1 = .accepted body bytes)
        ↔ p.Unshadowed N earlier height hash root := accepted_iff hdown height hash root
  rw [Db.drive_fillHeight, hreq] at hdrive
  dsimp only at hdrive
  rcases hjudge : judgeOffer N height hash root (p.world N clock rest (.offer height hash) w).1
    with ⟨body, bytes⟩ | _ | _
  · rw [hjudge] at hdrive
    dsimp only at hdrive
    split at hdrive
    · next db' hfill =>
      obtain ⟨-, rfl, -⟩ := (Prod.mk.inj hdrive).imp_right Prod.mk.inj
      obtain ⟨b, hb, hid, hh, hhash, -⟩ := Db.mem_of_request hreq
      refine ⟨fun _ => Db.recorded_fillBody hs hfill ⟨b, hb, hid, hh, hhash⟩, fun hnot => ?_⟩
      exact absurd (haccepted.mp ⟨body, bytes, hjudge⟩) hnot
    · exact nomatch (Prod.mk.inj hdrive).1
  all_goals
    rw [hjudge] at hdrive
    obtain ⟨-, rfl, -⟩ := (Prod.mk.inj hdrive).imp_right Prod.mk.inj
    refine ⟨fun hun => ?_, fun _ => rfl⟩
    obtain ⟨body, bytes, h⟩ := haccepted.mpr hun
    rw [hjudge] at h
    exact nomatch h

/-- **The gap of a height in a round**: it is recorded if the first answer it gets passes, and still
asked for if not. -/
theorem recorded_iff (cfg : Config) {source : String} (hs : source ≠ headerOnlySource)
    (resolution : String) (keep : Bool) {height id : ℕ} {hash root : String} :
    ∀ (heights : List ℕ) (earlier : List (ℕ × String))
    (report : ImportReport) (db : Db) (w : Round),
    (∀ url, url ∈ w.down ↔ p.Down N earlier url) → heights.Nodup → height ∈ heights →
    db.request height = some (hash, id, root) →
    ∃ report' db' w', drive (Txn.exec N cfg) (p.world N clock rest)
        (foldEach (fillHeight N source resolution keep) report heights) db w
        = (.ok report', db', w')
      ∧ (p.Unshadowed N ((db.asked (heights.takeWhile (· ≠ height))).reverse ++ earlier) height hash
          root → db'.Recorded height hash)
      ∧ (¬ p.Unshadowed N ((db.asked (heights.takeWhile (· ≠ height))).reverse ++ earlier) height
          hash root → db'.request height = some (hash, id, root))
  | [], _, _, _, _, _, _, hmem, _ => absurd hmem List.not_mem_nil
  | k :: heights, earlier, report, db, w, hdown, hnodup, hmem, hreq => by
      obtain ⟨hk, hnodup⟩ := List.nodup_cons.mp hnodup
      have hfit : Db.Fits N (p.world N clock rest) := fits_world
      obtain ⟨report₁, db₁, w₁, hdrive, hfilled⟩ :=
        Db.fillHeight_filledAt cfg hfit source resolution keep report k db w
      rw [drive_foldEach_cons, hdrive]
      by_cases hkh : k = height
      · subst hkh
        have hkeeps : ∀ j ∈ heights, ∀ d d', Db.FilledAt N source resolution keep j d d' →
            (d.Recorded k hash ↔ db₁.Recorded k hash) ∧ d.request k = db₁.request k →
            (d'.Recorded k hash ↔ db₁.Recorded k hash) ∧ d'.request k = db₁.request k := by
          intro j hj d d' hd hI
          have hne : k ≠ j := fun h => hk (h ▸ hj)
          exact ⟨(hd.recorded_iff hs hne hash).trans hI.1, (hd.request_eq hs hne).trans hI.2⟩
        obtain ⟨report₂, db₂, w₂, hrest, hrec, hsame⟩ :=
          Db.fillHeights_inv cfg hfit hkeeps report₁ db₁ w₁ ⟨Iff.rfl, rfl⟩
        have hnone : (k :: heights).takeWhile (· ≠ k) = [] := by simp
        refine ⟨report₂, db₂, w₂, hrest, ?_⟩
        rw [hnone, hrec, hsame]
        obtain ⟨hown, hleft⟩ := fillHeight_own hs hdown hreq hdrive
        exact ⟨hown, fun hnot => (hleft hnot).symm ▸ hreq⟩
      · have hne : height ≠ k := fun h => hkh h.symm
        have hdown₁ : ∀ url, url ∈ w₁.down ↔ p.Down N ((db.asked [k]).reverse ++ earlier) url := by
          intro url
          have hw : w₁ = (drive (Txn.exec N cfg) (p.world N clock rest)
              (fillHeight N source resolution keep report k) db w).2.2 := by rw [hdrive]
          rw [hw]
          exact down_fillHeight hdown url
        have hasked : db₁.asked (heights.takeWhile (· ≠ height))
            = db.asked (heights.takeWhile (· ≠ height)) := by
          refine List.filterMap_congr fun j hj => ?_
          have hjk : j ≠ k := fun h => hk (h ▸ (List.takeWhile_subset _ hj))
          rw [hfilled.request_eq hs hjk]
        have htake : (k :: heights).takeWhile (· ≠ height)
            = k :: heights.takeWhile (· ≠ height) := by simp [hkh]
        have hsplit : ∀ l, db.asked (k :: l) = db.asked [k] ++ db.asked l := fun l => by
          rw [← List.singleton_append, Db.asked, List.filterMap_append]
          rfl
        have h := recorded_iff cfg hs resolution keep heights ((db.asked [k]).reverse ++ earlier)
          report₁ db₁ w₁
          hdown₁ hnodup ((List.mem_cons.mp hmem).resolve_left hne)
          ((hfilled.request_eq hs hne).trans hreq)
        rwa [hasked, ← List.append_assoc, ← List.reverse_append, ← hsplit, ← htake] at h

/-- **A gap some peer has a body for is filled iff the first answer it gets passes the checks.** -/
theorem fillFromPeers_iff (cfg : Config) (clock : ℕ → Instant) (rest : ∀ q : Query, q.Answer)
    (max : Option ℕ) (keep : Bool) {db : Db} {height id : ℕ} {hash root : String}
    (hmem : height ∈ db.takenHeights max) (hreq : db.request height = some (hash, id, root)) :
    (p.Offered N height hash root
        → (p.runFillFromPeers N cfg clock rest max keep db).2.1.Recorded height hash)
      ↔ (p.Offered N height hash root → p.Unshadowed N
          (db.asked ((db.takenHeights max).takeWhile (· ≠ height))).reverse height hash root) := by
  have hsource : "peer" ≠ headerOnlySource := by decide
  have hdown : ∀ url, url ∈ ({} : Round).down ↔ p.Down N [] url :=
    fun url => iff_of_false List.not_mem_nil fun h => h
  let heights := db.takenHeights max
  let report : ImportReport := { gaps := (db.openGapHeights 0).length }
  let loop := foldEach (fillHeight N "peer" "recovered from a peer permanode" keep) report heights
  obtain ⟨report', db', w', hdrive, hrec, hleft⟩ : ∃ report' db' w',
      drive (Txn.exec N cfg) (p.world N clock rest) loop db {} = (.ok report', db', w')
        ∧ (p.Unshadowed N (db.asked (heights.takeWhile (· ≠ height))).reverse height hash root
          → db'.Recorded height hash)
        ∧ (¬ p.Unshadowed N (db.asked (heights.takeWhile (· ≠ height))).reverse height hash root
          → db'.request height = some (hash, id, root)) := by
    have h := @recorded_iff N p clock rest cfg _ hsource "recovered from a peer permanode" keep
      _ _ _ _ heights [] report db {} hdown (db.nodup_takenHeights max) hmem hreq
    rwa [List.append_nil] at h
  obtain ⟨now, hend⟩ : ∃ now,
      (p.runFillFromPeers N cfg clock rest max keep db).2.1 = db'.maintained now := by
    rw [runFillFromPeers, fillFromPeers, Db.drive_fillGaps, hdrive]
    exact ⟨_, rfl⟩
  rw [hend]
  refine imp_congr_right fun _ => ⟨fun h => ?_, fun h => Db.recorded_maintained (hrec h)⟩
  by_contra hnot
  have hcap := h.1
  rw [Db.capturedBlock_of_maintained, Db.not_captured_of_request (hleft hnot)] at hcap
  exact Bool.false_ne_true hcap

/-! ### Two peers and one gap -/

/-- The block at height 7 as the node's header has it, an open gap. -/
def gapDb : Db := (sampleDb.appendStatus 1 .canonical 100).recordGap 7 (some "a7") 100 "pruned"

/-- A peer whose copy of the body has lost a micronoid, and one that has the body. -/
def twoPeers : Peers where
  urls := ["http://a", "http://b"]
  raw _ _ _ := .notFound
  body place _ _ := .ok (if place = 0 then { sampleBody with rewardMicronoid := 4 } else sampleBody)
  rawFrom _ := .ok none

theorem request_gapDb : gapDb.request 7 = some ("a7", 1, sampleHeader.txRoot) := by
  decide +kernel

theorem proves_sampleBody (height : ℕ) (hash : String) :
    Proves Noid.sample height hash sampleHeader.txRoot (.body sampleBody) := by
  have hcheck : checkBody Noid.sample sampleBody sampleHeader.txRoot = .ok () := by decide +kernel
  refine ⟨sampleBody, none, ?_⟩
  simp only [judgeOffer, judgeBody, hcheck]

theorem offered_twoPeers : twoPeers.Offered Noid.sample 7 "a7" sampleHeader.txRoot :=
  ⟨1, by decide, .body sampleBody, rfl, proves_sampleBody 7 "a7"⟩

/-- **Bad data of one peer shadows another that has the body.** -/
theorem bad_answer_shadows : ¬ ∀ (N : Noid) (p : Peers) (cfg : Config) (clock : ℕ → Instant)
    (rest : ∀ q : Query, q.Answer) (max : Option ℕ) (keep : Bool) (db : Db) (height id : ℕ)
    (hash root : String), height ∈ db.takenHeights max →
      db.request height = some (hash, id, root) → p.Offered N height hash root →
        (p.runFillFromPeers N cfg clock rest max keep db).2.1.Recorded height hash := by
  intro h
  refine absurd (h Noid.sample twoPeers {} id (chainAnswers [] 0) none true gapDb 7 1 "a7"
    sampleHeader.txRoot (by decide) request_gapDb offered_twoPeers) ?_
  decide +kernel

/-- With the peers the other way round the first answer passes. -/
theorem fillFromPeers_iff_swapped :
    (({ twoPeers with body := fun _ _ _ => .ok sampleBody } : Peers).Offered Noid.sample 7 "a7"
          sampleHeader.txRoot
        → (({ twoPeers with body := fun _ _ _ => .ok sampleBody } : Peers).runFillFromPeers
            Noid.sample {} id (chainAnswers [] 0) none true gapDb).2.1.Recorded 7 "a7")
      ↔ (({ twoPeers with body := fun _ _ _ => .ok sampleBody } : Peers).Offered Noid.sample 7 "a7"
          sampleHeader.txRoot
        → ({ twoPeers with body := fun _ _ _ => .ok sampleBody } : Peers).Unshadowed Noid.sample
            (gapDb.asked ((gapDb.takenHeights none).takeWhile (· ≠ 7))).reverse 7 "a7"
            sampleHeader.txRoot) :=
  fillFromPeers_iff {} id (chainAnswers [] 0) none true (by decide) request_gapDb

end Peers

end Permanode

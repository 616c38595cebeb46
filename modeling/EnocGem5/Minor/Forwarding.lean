import EnocGem5.Lib.Run
import EnocGem5.Minor.PendingStores

/-!
# Forwarding — loads and the stores before them

A thread pushes its loads and stores in program order. Memory takes the packets when it accepts
them, and answers them in any order. Each load that the pipeline gets back should have, at each
physical byte, what the youngest store before it wrote, or what memory had at the start.

It need not. The range comparison takes a request for one range of physical addresses below
`2 ^ 64`, which a request over two pages need not be. And a response removes a store from the store
buffer although an older store to the same bytes is still there, and is then forwarded in its place.
In runs without these two, every load is right.
-/

namespace EnocGem5.Minor

open Lib List LSQRequest

/-! ## Runs -/

inductive Call
  | pushRequest (isLoad : Bool) (vaddr size : ℕ) (data : ℕ → Byte)
  | finish (seqNum : ℕ) (accept : Bool)
  | step (accepts : List Bool)
  | commit
  | recvReqRetry (accept : Bool)
  | recvTimingResp (k : ℕ)

/-- The queue, with the requests pushed so far, in program order, and the requests that the pipeline
got back. -/
structure Session where
  lsq : LSQ
  pushed : List LSQRequest
  completed : List LSQRequest

namespace Session

def start (initial : ℕ → Byte) : Session := ⟨LSQ.start initial, [], []⟩

def withLSQ (s : Session) (L : LSQ) : Session := { s with lsq := L }

def step (cfg : Config) (s : Session) : Call → Option Session
  | .pushRequest isLoad vaddr size data =>
    let r := cfg.request s.pushed.length isLoad vaddr size data
    some { s with lsq := s.lsq.pushRequest r, pushed := s.pushed ++ [r] }
  | .finish seqNum accept => (s.lsq.finish cfg accept seqNum).map s.withLSQ
  | .step accepts => (s.lsq.step cfg accepts).map s.withLSQ
  | .commit =>
    some { s with
      lsq := (s.lsq.commit cfg).1, completed := s.completed ++ (s.lsq.commit cfg).2.toList }
  | .recvReqRetry accept => (s.lsq.recvReqRetry cfg accept).map s.withLSQ
  | .recvTimingResp k => (s.lsq.recvTimingResp k).map s.withLSQ

end Session

/-- At each byte, the value of the youngest store among the first `n` requests, or the initial
one. -/
def expected (initial : ℕ → Byte) (pushed : List LSQRequest) (n : ℕ) : ℕ → Byte := fun x =>
  (youngest (((pushed.take n).filter (!·.isLoad)).map LSQRequest.write) x).getD (initial x)

/-- Each load that was completed has what it should, at each byte of each fragment. -/
def LoadsRight (initial : ℕ → Byte) (s : Session) : Prop :=
  ∀ r ∈ s.completed, r.isLoad = true → ∀ f ∈ r.fragments, ∀ k < f.size,
    r.data (f.vaddr - r.vaddr + k) = expected initial s.pushed r.seqNum (f.paddr + k)

/-! ## When it holds -/

variable (cfg : Config)

/-- The access is one range of physical addresses, with a 64-bit end. -/
def Config.Contiguous (vaddr size : ℕ) : Prop :=
  (∀ f ∈ cfg.fragments vaddr size, f.paddr = cfg.translate vaddr + (f.vaddr - vaddr)) ∧
    cfg.translate vaddr + size < 2 ^ 64

instance (vaddr size : ℕ) : Decidable (cfg.Contiguous vaddr size) :=
  inferInstanceAs (Decidable (_ ∧ _))

/-- Two requests have a physical byte in common. -/
def LSQRequest.Overlaps (r s : LSQRequest) : Prop :=
  ∃ f ∈ r.fragments, ∃ g ∈ s.fragments, f.paddr < g.paddr + g.size ∧ g.paddr < f.paddr + f.size

instance (r s : LSQRequest) : Decidable (r.Overlaps s) :=
  inferInstanceAs (Decidable (∃ f ∈ r.fragments, ∃ g ∈ s.fragments, _ ∧ _))

/-- The response does not complete a store of the store buffer while an older one there has a byte
of it. -/
def LSQ.OldestFirst (L : LSQ) (k : ℕ) : Prop :=
  ∀ p ∈ L.port.inFlight[k]?.toList, ∀ r ∈ L.slots, r.seqNum = p.seqNum →
    r.numRetiredFragments + 1 = r.fragments.length →
    ∀ u ∈ L.slots, u.seqNum < r.seqNum → ¬ u.Overlaps r

instance (L : LSQ) (k : ℕ) : Decidable (L.OldestFirst k) :=
  inferInstanceAs
    (Decidable (∀ p ∈ L.port.inFlight[k]?.toList, ∀ r ∈ L.slots, _ → _ → ∀ u ∈ L.slots, _ → ¬ _))

def Session.Orderly (s : Session) : Call → Prop
  | .pushRequest _ vaddr size _ => cfg.Contiguous vaddr size
  | .recvTimingResp k => s.lsq.OldestFirst k
  | _ => True

instance (s : Session) : (call : Call) → Decidable (s.Orderly cfg call)
  | .pushRequest _ vaddr size _ => inferInstanceAs (Decidable (cfg.Contiguous vaddr size))
  | .recvTimingResp k => inferInstanceAs (Decidable (s.lsq.OldestFirst k))
  | .finish _ _ | .step _ | .commit | .recvReqRetry _ => isTrue trivial

/-! ## What a push does -/

variable {cfg : Config} {initial : ℕ → Byte} {pushed : List LSQRequest}

theorem Config.request_paddr (cfg : Config) (seqNum : ℕ) (isLoad : Bool) (vaddr size : ℕ)
    (data : ℕ → Byte) :
    (cfg.request seqNum isLoad vaddr size data).paddr = cfg.translate vaddr := by
  rw [paddr, Config.request]
  rw [Config.fragments]
  split
  · rw [makeFragmentRequests, Nat.add_assoc, Nat.add_comm 1, fragmentsFrom]
    rfl
  · rfl

theorem Config.request_wellFormed {vaddr size : ℕ} (h : cfg.Contiguous vaddr size) (seqNum : ℕ)
    (isLoad : Bool) (data : ℕ → Byte) : (cfg.request seqNum isLoad vaddr size data).WellFormed := by
  have hpaddr := cfg.request_paddr seqNum isLoad vaddr size data
  have htiles := cfg.fragments_tiles vaddr size
  refine ⟨?_, ?_, ?_, ?_⟩
  · intro f hf
    exact htiles.inside _ (mem_map_of_mem hf)
  · intro o ho
    obtain ⟨part, hpart, hcover⟩ :=
      htiles.cover (vaddr + o) (Nat.le_add_right _ _) (Nat.add_lt_add_left ho _)
    obtain ⟨f, hf, rfl⟩ := mem_map.1 hpart
    exact ⟨f, hf, hcover⟩
  · intro f hf
    rw [hpaddr]
    exact h.1 f hf
  · rw [hpaddr]
    exact h.2

theorem expected_eq_foldl (initial : ℕ → Byte) (pushed : List LSQRequest) (n : ℕ) :
    expected initial pushed n
      = (((pushed.take n).filter (!·.isLoad)).map LSQRequest.write).foldl overlay initial :=
  funext fun _ => (foldl_overlay initial).symm

theorem expected_append {n : ℕ} (r : LSQRequest) (h : n ≤ pushed.length) :
    expected initial (pushed ++ [r]) n = expected initial pushed n := by
  rw [expected_eq_foldl, expected_eq_foldl, take_append_of_le_length h]

/-- After the last request, memory has its write as well. -/
theorem expected_succ (r : LSQRequest) :
    expected initial (pushed ++ [r]) (pushed.length + 1)
      = (([r].filter (!·.isLoad)).map LSQRequest.write).foldl overlay
      (expected initial pushed pushed.length) := by
  rw [expected_eq_foldl, expected_eq_foldl, take_length, take_of_length_le (by simp), filter_append,
    map_append, foldl_append]

namespace Inv

variable {E : ℕ → ℕ → Byte} {N : ℕ} {L : LSQ} {r : LSQRequest}

theorem start (initial : ℕ → Byte) : Inv (expected initial []) 0 (LSQ.start initial) := by
  refine ⟨List.Pairwise.nil, by simp [LSQ.origins, LSQ.all, LSQ.start], by simp [LSQ.start],
    by simp [LSQ.all, LSQ.start], by simp [LSQ.start], by simp [LSQ.start], by simp [LSQ.start],
    rfl, List.Pairwise.nil, ?_, ?_, by simp [LSQ.start]⟩
  · intro x v hx
    cases hx
  · intro n _
    rw [expected_eq_foldl, take_nil]
    rfl

/-- A new request sees all the stores that are pending. -/
theorem push (h : Inv (expected initial pushed) pushed.length L) (hseq : r.seqNum = pushed.length)
    (hwf : r.WellFormed) (hstate : r.state = .InTranslation)
    (hissued : r.numIssuedFragments = 0) (hretired : r.numRetiredFragments = 0) :
    Inv (expected initial (pushed ++ [r])) (pushed ++ [r]).length (L.pushRequest r) := by
  have hall : (L.pushRequest r).all = L.all ++ [r] := by
    simp [LSQ.all, LSQ.pushRequest]
  have horigins : (L.pushRequest r).origins = L.origins ++ [r.origin] := by
    rw [LSQ.origins, hall, map_append]
    rfl
  have hlen : (pushed ++ [r]).length = pushed.length + 1 := length_append
  have hlt : ∀ o ∈ L.origins, o.seqNum < pushed.length := fun o ho => (h.known o ho).1
  have hsame : ∀ u ∈ L.all, expected initial (pushed ++ [r]) u.seqNum =
      expected initial pushed u.seqNum := fun u hu =>
    expected_append r (h.known u.origin (mem_map_of_mem hu)).1.le
  refine ⟨?_, ?_, ?_, ?_, h.inSlots, h.inTransfers, ?_, h.stores, h.ordered, h.issued, ?_, ?_⟩
  · rw [horigins, map_append, pairwise_append]
    refine ⟨h.sorted, pairwise_singleton _ _, ?_⟩
    intro m hm k hk
    obtain ⟨o, ho, rfl⟩ := mem_map.1 hm
    rw [mem_singleton.1 hk]
    exact lt_of_lt_of_eq (hlt o ho) hseq.symm
  · rw [horigins, hlen, forall_mem_append, forall_mem_singleton]
    refine ⟨fun o ho => ⟨Nat.lt_succ_of_lt (hlt o ho), (h.known o ho).2⟩, ?_⟩
    exact ⟨lt_of_eq_of_lt hseq (Nat.lt_succ_self _), hwf.inside, hwf.cover, hwf.contiguous,
      hwf.bounded⟩
  · intro p hp
    rw [hlen]
    exact Nat.lt_succ_of_lt (h.fresh p hp)
  · rw [hall, forall_mem_append, forall_mem_singleton]
    refine ⟨fun u hu => hsame u hu ▸ h.tracked u hu, ?_⟩
    -- no packet in flight has its number
    have hnone : packetsOf r.seqNum L.port.inFlight = [] :=
      filter_eq_nil_iff.2 fun p hp => by simpa [hseq] using (h.fresh p hp).ne
    change r.Tracked _ (packetsOf r.seqNum L.port.inFlight)
    rw [hnone]
    refine ⟨?_, by rw [hissued]; exact Nat.zero_le _, fun _ p hp => absurd hp not_mem_nil, ?_, ?_⟩
    · rw [hretired, hissued]
      rfl
    · intro _ i f hi
      rw [hissued] at hi
      cases hi
    · intro _ hc
      exact absurd (hstate.symm.trans hc) (by decide)
  · refine forall_mem_append.2 ⟨h.inRequests, forall_mem_singleton.2 ?_⟩
    cases hl : r.isLoad
    · exact .inr ⟨hl, hissued, .inl hstate⟩
    · exact .inl ⟨hl, .inl hstate⟩
  · intro n hn
    rw [horigins, filter_append, map_append, foldl_append]
    change _ = foldl overlay (foldl overlay L.port.mem _) _
    have hn' : n = pushed.length + 1 ∨ n = pushed.length ∨ n ∈ L.requests.map (·.seqNum) := by
      rcases hn with hn | hn
      · exact .inl (hn.trans hlen)
      · simp only [LSQ.pushRequest, map_append, mem_append, map_cons, map_nil, mem_singleton] at hn
        rcases hn with hn | hn
        · exact .inr (.inr hn)
        · exact .inr (.inl (hn.trans hseq))
    rcases hn' with rfl | hn'
    · -- all the stores that were pending are before it, and so is the new one
      have hbefore : L.origins.filter (before (pushed.length + 1))
          = L.origins.filter (before pushed.length) := by
        refine filter_congr fun o ho => ?_
        simp only [before, hlt o ho, Nat.lt_succ_of_lt (hlt o ho)]
      have hlast : ([r.origin].filter (before (pushed.length + 1))).map LSQRequest.write
          = ([r].filter (!·.isLoad)).map LSQRequest.write := by
        have hlt' : r.seqNum < pushed.length + 1 := lt_of_eq_of_lt hseq (Nat.lt_succ_self _)
        cases hl : r.isLoad
        · have hb : r.origin.before (pushed.length + 1) = true := by
            simp [before, origin, hl, hlt']
          rw [filter_cons_of_pos hb, filter_cons_of_pos (by simp [hl])]
          exact congrArg (fun w => [w]) (origin_write hl)
        · simp [before, origin, hl]
      rw [expected_succ, hbefore, hlast, h.waiting _ (.inl rfl)]
    · have hle : n ≤ pushed.length := by
        rcases hn' with rfl | hn'
        · exact le_rfl
        · obtain ⟨u, hu, rfl⟩ := mem_map.1 hn'
          exact (hlt u.origin (mem_map_of_mem ((requests_sublist L).subset hu))).le
      have hnot : [r.origin].filter (before n) = [] := by
        have hnlt : ¬ r.seqNum < n := not_lt.2 (hle.trans hseq.symm.le)
        simp [before, origin, hnlt]
      rw [expected_append r hle, hnot, h.waiting n hn']
      rfl
  · intro u hu hretry o ho hbefore
    rcases mem_append.1 hu with hu | hu
    · rw [horigins] at ho
      rcases mem_append.1 ho with ho | ho
      · exact h.apart u hu hretry o ho hbefore
      · -- the new request is not before an older one
        have hult := hlt u.origin (mem_map_of_mem ((requests_sublist L).subset hu))
        rw [mem_singleton.1 ho] at hbefore
        simp only [before, Bool.and_eq_true, decide_eq_true_eq] at hbefore
        exact absurd (hbefore.2.trans hult) (by rw [← hseq]; exact lt_irrefl _)
    · rw [mem_singleton.1 hu] at hretry
      exact absurd (hstate.symm.trans hretry) (by decide)

theorem commit (h : Inv E N L) (cfg : Config) :
    Inv E N (L.commit cfg).1 ∧ ∀ r ∈ (L.commit cfg).2.toList, r.seqNum < N ∧
    (r.isLoad = true → ∀ f ∈ r.fragments, r.Right (E r.seqNum) f) := by
  rw [LSQ.commit]
  split
  case h_1 => exact ⟨h, by simp⟩
  case h_2 r rest hr =>
    have hrt : r ∈ L.transfers := hr ▸ mem_cons_self
    have hrall := (transfers_sublist L).subset hrt
    have ht := h.tracked r hrall
    have hcount := h.stores
    have hrest := h.inTransfers
    rw [hr, countP_cons] at hcount
    rw [hr, forall_mem_cons] at hrest
    have hall : L.all = L.slots ++ r :: (rest ++ L.requests) := by rw [LSQ.all, hr, cons_append]
    dsimp only
    split
    case h_1 hstate =>
      -- the store goes from the front of `transfers` to the end of the store buffer
      obtain ⟨hl, hissued, -⟩ : r.isLoad = false ∧ r.numIssuedFragments = 0 ∧ _ := by
        rcases h.inTransfers r hrt with ⟨_, hc | hc | hc | hc | hc⟩ | hc
        all_goals first | exact hc | exact absurd (hc.symm.trans hstate) (by decide)
      split
      case isFalse => exact ⟨h, by simp⟩
      case isTrue =>
        refine ⟨?_, by simp⟩
        have ho : origin { r with state := .StoreInStoreBuffer } = r.origin := rfl
        refine h.change (a := L.slots) (b := rest ++ L.requests) hall ?_ ho h.changedFor_refl
          (ht.restated (by decide)) ?_ hrest.2 h.inRequests ?_ ?_ ?_ (fun _ hn => hn)
          (fun _ hu _ hnew => absurd hu hnew)
        · simp [LSQ.all, append_assoc]
        · exact forall_mem_append.2 ⟨h.inSlots, forall_mem_singleton.2 ⟨hl, .inl rfl⟩⟩
        · simp only [hl, Bool.not_false, if_true, Bool.false_eq_true, if_false] at hcount ⊢
          omega
        · exact pairwise_append.2 ⟨h.ordered, pairwise_singleton _ _,
            fun u _ s hs _ => mem_singleton.1 hs ▸ ⟨hissued, rfl⟩⟩
        · intro x
          have hnone := issuedWrite_zero (r := { r with state := .StoreInStoreBuffer }) hissued x
          rw [map_append, youngest_append, map_singleton, youngest_singleton, hnone, Option.none_or]
    case h_2 hstate =>
      have hl : r.isLoad = true := by
        rcases h.inTransfers r hrt with hc | ⟨_, _, hc⟩
        · exact hc.1
        · exact absurd (hstate.symm.trans hc) (by decide)
      have hright : r.seqNum < N ∧ (r.isLoad = true → ∀ f ∈ r.fragments, r.Right (E r.seqNum) f) :=
        ⟨(h.known r.origin (mem_map_of_mem hrall)).1, fun hl => ht.done hl hstate⟩
      refine ⟨?_, by simpa using hright⟩
      refine h.erased (a := L.slots) (b := rest ++ L.requests) hall rfl (Sublist.refl _)
        (hr ▸ sublist_cons_self r rest) rfl h.changedFor_refl ?_ h.issued ?_
      · simpa [hl] using hcount
      · intro n _
        have hnot : ¬ r.origin.before n = true := by simp [before, origin, hl]
        simp only [LSQ.origins, hall, map_append, map_cons, filter_append, filter_cons_of_neg hnot]
        simp [LSQ.all]
    case h_3 => exact ⟨h, by simp⟩

end Inv

theorem LSQRequest.write_eq_none_of_not_overlaps {r u : LSQRequest} (h : ¬ u.Overlaps r) {x : ℕ}
    {v : Byte} (hv : r.write x = some v) : u.write x = none := by
  have hrange : ∀ {s : LSQRequest} {f : Fragment} {w : Byte}, s.piece f x = some w →
      f.paddr ≤ x ∧ x < f.paddr + f.size := by
    intro s f w hw
    rw [piece] at hw
    split at hw
    · assumption
    · cases hw
  cases hu : u.write x with
  | none => rfl
  | some w =>
    obtain ⟨_, hp, hg⟩ := exists_of_youngest hv
    obtain ⟨g, hgm, rfl⟩ := mem_map.1 hp
    obtain ⟨_, hp, hf⟩ := exists_of_youngest hu
    obtain ⟨f, hfm, rfl⟩ := mem_map.1 hp
    have hg' := hrange hg
    have hf' := hrange hf
    exact absurd ⟨f, hfm, g, hgm, by omega, by omega⟩ h

/-! ## Runs without the two -/

/-- The invariant of a run, with what was completed so far. -/
def Sound (initial : ℕ → Byte) (s : Session) : Prop :=
  Inv (expected initial s.pushed) s.pushed.length s.lsq ∧
    (∀ r ∈ s.completed, r.seqNum < s.pushed.length) ∧ LoadsRight initial s

theorem Sound.step {s s' : Session} {call : Call} (h : Sound initial s)
    (horderly : s.Orderly cfg call) (hs : s.step cfg call = some s') : Sound initial s' := by
  obtain ⟨hinv, hbound, hright⟩ := h
  -- the operations of the queue alone
  have hlsq :
      ∀ {result : Option LSQ}, (∀ L', result = some L' →
      Inv (expected initial s.pushed) s.pushed.length L') → result.map s.withLSQ = some s' →
      Sound initial s' := by
    intro result hkeeps hs
    obtain ⟨L', hL', rfl⟩ := Option.map_eq_some_iff.1 hs
    exact ⟨hkeeps L' hL', hbound, hright⟩
  cases call with
  | pushRequest isLoad vaddr size data =>
    cases hs
    refine ⟨hinv.push rfl (Config.request_wellFormed horderly _ _ _) rfl rfl rfl, ?_, ?_⟩
    · intro r hr
      rw [length_append]
      exact Nat.lt_add_right _ (hbound r hr)
    · intro r hr hl f hf k hk
      rw [expected_append _ (hbound r hr).le]
      exact hright r hr hl f hf k hk
  | finish seqNum accept => exact hlsq (fun _ hL' => hinv.finish hL') hs
  | step accepts => exact hlsq (fun _ hL' => hinv.step hL') hs
  | recvReqRetry accept => exact hlsq (fun _ hL' => hinv.recvReqRetry hL') hs
  | recvTimingResp k =>
    refine hlsq (fun _ hL' => hinv.recvTimingResp hL' ?_) hs
    intro p hp r hr hseq hlast u hu hlt x v hv
    have hmem : p ∈ s.lsq.port.inFlight[k]?.toList := by simp [hp]
    exact write_eq_none_of_not_overlaps (horderly p hmem r hr hseq hlast u hu hlt) hv
  | commit =>
    cases hs
    obtain ⟨hkeeps, hdone⟩ := hinv.commit cfg
    refine ⟨hkeeps, ?_, ?_⟩
    · exact forall_mem_append.2 ⟨hbound, fun r hr => (hdone r hr).1⟩
    · exact forall_mem_append.2 ⟨hright, fun r hr => (hdone r hr).2⟩

/-- In every run whose accesses are contiguous in physical memory, and whose responses complete
overlapping stores oldest first, every load completed has the value of the youngest store before it,
at each of its bytes, or the initial one. -/
theorem loads_see_youngest_store (cfg : Config) (initial : ℕ → Byte) (calls : List Call)
    (horderly : Throughout (Session.step cfg) (Session.Orderly cfg) (Session.start initial) calls) :
    Always (Session.step cfg) (LoadsRight initial) (Session.start initial) calls := by
  have hstart : Sound initial (Session.start initial) :=
    ⟨Inv.start initial, by simp [Session.start], fun r hr => by cases hr⟩
  exact Always.of_throughout (fun _ h => h.2.2) (fun _ _ _ => Sound.step) hstart horderly

/-- Lines of 64 bytes and pages of 4 KiB. The second page is not next to the first one in physical
memory. -/
def twoPages : Config where
  lineBits := 6
  pageBits := 12
  physicalPage := fun page => if page = 1 then 5 else page
  inMemorySystemLimit := 2
  transfersSize := 2
  numSlots := 5
  storeLimitPerCycle := 1

/-- A store over two lines of a page, a load of one of its bytes, and the responses in the order of
the packets. -/
def splitStoreRun : List Call :=
  [.pushRequest false 62 4 (fun k => BitVec.ofNat 8 (k + 1)), .finish 0 true,
    .pushRequest true 64 1 (fun _ => 0), .finish 1 true, .commit, .step [true, true], .commit,
    .step [], .recvTimingResp 0, .recvTimingResp 0]

theorem loads_see_youngest_store_split :
    Throughout (Session.step twoPages) (Session.Orderly twoPages) (Session.start fun _ => 0)
      splitStoreRun ∧ (splitStoreRun.foldlM (Session.step twoPages) (Session.start fun _ => 0)).map
        (fun s => s.completed.map fun r => r.data 0) = some [3] ∧
      Always (Session.step twoPages) (LoadsRight fun _ => 0) (Session.start fun _ => 0)
          splitStoreRun :=
  ⟨by decide, by decide, loads_see_youngest_store twoPages (fun _ => 0) splitStoreRun (by decide)⟩

/-- A store over the end of the first page, and a load of its bytes in the second one. The store
buffer compares the physical range after the end of the first page, and the load goes to memory
before the store. -/
theorem crossingStore_missed :
    ¬ Always (Session.step twoPages) (LoadsRight fun _ => 0) (Session.start fun _ => 0)
      [.pushRequest false 4094 4 (fun _ => 1), .finish 0 true,
        .pushRequest true 4096 2 (fun _ => 0), .finish 1 true, .commit, .step [true, true],
        .recvTimingResp 0, .commit] := by
  intro h
  have hlast := h.last rfl
  have hbyte := hlast _ mem_cons_self rfl _ mem_cons_self 0 (by decide)
  exact absurd hbyte (by decide)

end EnocGem5.Minor

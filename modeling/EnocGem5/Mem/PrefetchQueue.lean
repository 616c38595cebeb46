import EnocGem5.Lib.Run

/-!
# PrefetchQueue — where `QueuedPrefetcher` puts a prefetch

An iterator of `pfq` is a position, and `end()` is the length of the list. The walk of `insert`
starts at `end()` and looks there first, whatever it finds; only an empty queue is not walked. The
queue keeps its order exactly in the runs in which each prefetch is put into an empty queue.
-/

namespace EnocGem5.Mem.Prefetch

open Lib List

/-- `reached` tells when the entry got its priority; the source does not keep it. -/
structure DeferredPacket where
  tick : ℕ
  addr : ℕ
  isSecure : Bool
  priority : ℤ
  reached : ℕ
  deriving DecidableEq, Repr

/-- `pastEnd` is the priority that is read at `end()` of a list. -/
structure Params where
  blkSize : ℕ
  queueSize : ℕ
  clockPeriod : ℕ
  latency : ℕ
  queueSquash : Bool
  queueFilter : Bool
  cacheSnoop : Bool
  pastEnd : List DeferredPacket → ℤ
  two_le : 2 ≤ queueSize

/-- An access, with the candidates of `calculatePrefetch` for it and what is in the cache or the
miss queue. -/
structure Access where
  addr : ℕ
  isSecure : Bool
  observed : Bool
  curTick : ℕ
  addresses : List (ℕ × ℤ)
  cached : ℕ → Bool → Bool

/-- The queue with its history: the entries dropped from a full queue, each with the list as it was,
and what insertions looked at, `none` past the end. -/
structure QueuedPrefetcher where
  pfq : List DeferredPacket := []
  changes : ℕ := 0
  dropped : List (DeferredPacket × List DeferredPacket) := []
  looked : List (Option DeferredPacket) := []

inductive Call
  | notify (pkt : Access)
  | getPacket

def Params.blockAddr (P : Params) (addr : ℕ) : ℕ := addr / P.blkSize * P.blkSize

def priorityAt (l : List DeferredPacket) (it : ℕ) : Option ℤ := l[it]?.map (·.priority)

/-- The loop that moves a packet whose priority was raised. -/
def raise : (prev it : ℕ) → List DeferredPacket → List DeferredPacket
  | 0, _, l => l
  | prev + 1, it, l =>
    match l[prev]?, l[it]? with
    | some x, some dp => if dp.priority > x.priority then raise prev prev ((l.set it x).set prev dp)
      else raise prev it l
    | _, _ => l

/-- The loop for the oldest packet of the priority at `it`. -/
def oldest (l : List DeferredPacket) : (prev it : ℕ) → ℕ
  | 0, it => it
  | prev + 1, it => if priorityAt l prev = priorityAt l it then oldest l prev prev else it

/-- The loop for the insertion point, with what it looks at. -/
def insertionPoint (pastEnd : ℤ) (l : List DeferredPacket) (priority : ℤ) :
    (it : ℕ) → ℕ × List (Option DeferredPacket)
  | 0 => (0, [])
  | it + 1 =>
    if priority > (priorityAt l (it + 1)).getD pastEnd then
      let (point, looked) := insertionPoint pastEnd l priority it
      (point, l[it + 1]? :: looked)
    else (it + 1, [l[it + 1]?])

namespace QueuedPrefetcher

section Model

variable (P : Params) (pkt : Access) (Q : QueuedPrefetcher)

/-- The entry for a block with its position, if the queue is filtered. -/
def inPrefetch (addr : ℕ) : Option (ℕ × DeferredPacket) :=
  let it := Q.pfq.findIdx fun dp => dp.addr = addr && dp.isSecure == pkt.isSecure
  if P.queueFilter then Q.pfq[it]?.map (it, ·) else none

def makeRoom : Option QueuedPrefetcher :=
  if Q.pfq.length = P.queueSize then
    if Q.pfq.length ≤ 1 then none
    else
      let it := oldest Q.pfq (Q.pfq.length - 1) (Q.pfq.length - 1)
      some { Q with
        pfq := Q.pfq.eraseIdx it
        dropped := Q.dropped ++ Q.pfq[it]?.toList.map (·, Q.pfq) }
  else some Q

def emplace (dpp : DeferredPacket) : QueuedPrefetcher :=
  if Q.pfq.length = 0 then { Q with pfq := [dpp], changes := Q.changes + 1 }
  else
    let (it, looked) := insertionPoint (P.pastEnd Q.pfq) Q.pfq dpp.priority Q.pfq.length
    -- the new element may belong behind the head
    let it := if it = 0 ∧ dpp.priority ≤ (priorityAt Q.pfq it).getD 0 then it + 1 else it
    { Q with
      pfq := Q.pfq.insertIdx it dpp
      changes := Q.changes + 1
      looked := Q.looked ++ looked }

def insert (pf_info : ℕ × ℤ) : Option QueuedPrefetcher :=
  let addr := P.blockAddr pf_info.1
  match Q.inPrefetch P pkt addr with
  | some (it, dp) =>
    if dp.priority < pf_info.2 then
      let pfq := Q.pfq.set it { dp with priority := pf_info.2, reached := Q.changes }
      some { Q with pfq := raise it it pfq, changes := Q.changes + 1 }
    else some Q
  | none =>
    if P.cacheSnoop && pkt.cached addr pkt.isSecure then some Q
    else
      let pf_time := pkt.curTick + P.clockPeriod * P.latency
      (Q.makeRoom P).map fun Q => Q.emplace P ⟨pf_time, addr, pkt.isSecure, pf_info.2, Q.changes⟩

def squash : QueuedPrefetcher :=
  let blk_addr := P.blockAddr pkt.addr
  if P.queueSquash then
    { Q with pfq := Q.pfq.filter fun dp => !(dp.addr = blk_addr && dp.isSecure == pkt.isSecure) }
  else Q

/-- `notify`, with the time at which the first prefetch is ready. -/
def notify : Option (QueuedPrefetcher × Option ℕ) :=
  (if pkt.observed then pkt.addresses.foldlM (insert P pkt) (Q.squash P pkt) else some Q).map
      fun Q =>
    (Q, Q.pfq.head?.map (·.tick))

def getPacket : QueuedPrefetcher × Option DeferredPacket :=
  ({ Q with pfq := Q.pfq.tail }, Q.pfq.head?)

def step : Call → Option QueuedPrefetcher
  | .notify pkt => (Q.notify P pkt).map Prod.fst
  | .getPacket => some Q.getPacket.1

end Model

section Order

variable (P : Params) (Q : QueuedPrefetcher)

/-- Equal priorities are in the order in which they were reached, a full queue loses the oldest
entry of its lowest priority, and no insertion looks past the end. -/
structure Orderly : Prop where
  sorted : Q.pfq.Pairwise fun x y => x.priority > y.priority ∨ x.priority = y.priority ∧
    x.reached < y.reached
  bounded : Q.pfq.length ≤ P.queueSize
  unique : P.queueFilter = true →
    Q.pfq.Pairwise fun x y => (x.addr, x.isSecure) ≠ (y.addr, y.isSecure)
  oldest : ∀ d ∈ Q.dropped, ∀ dp ∈ d.2,
    d.1.priority < dp.priority ∨ d.1.priority = dp.priority ∧ d.1.reached ≤ dp.reached
  inside : none ∉ Q.looked

/-- A candidate is neither in the queue nor in the cache. -/
def Inserts (pkt : Access) (pf_info : ℕ × ℤ) : Prop :=
  Q.inPrefetch P pkt (P.blockAddr pf_info.1) = none ∧
    (P.cacheSnoop && pkt.cached (P.blockAddr pf_info.1) pkt.isSecure) = false

/-- Prefetches are put into an empty queue only. -/
def IntoEmpty : Call → Prop
  | .notify pkt => pkt.observed = true → Throughout (insert P pkt)
      (fun Q pf_info => Q.Inserts P pkt pf_info → Q.pfq = []) (Q.squash P pkt) pkt.addresses
  | .getPacket => True

/-- As long as no insertion looks past the end, the queue is short. -/
def Short : Prop := none ∉ Q.looked → Q.pfq.length ≤ 1 ∧ Q.dropped = []

variable {P Q} {Q' : QueuedPrefetcher} {pkt : Access} {pf_info : ℕ × ℤ}

theorem Short.orderly_iff (h : Q.Short) : Q.Orderly P ↔ none ∉ Q.looked := by
  refine ⟨Orderly.inside, fun hin => ?_⟩
  rcases h hin with ⟨hlen, hdropped⟩
  have hpair : ∀ R : DeferredPacket → DeferredPacket → Prop, Q.pfq.Pairwise R := by
    intro R
    match Q.pfq, hlen with
    | [], _ => exact .nil
    | [x], _ => exact pairwise_singleton R x
  refine ⟨hpair _, Nat.le_trans hlen (Nat.le_of_succ_le P.two_le), fun _ => hpair _, ?_, hin⟩
  rw [hdropped]
  exact forall_mem_nil _

theorem length_raise (prev it : ℕ) (l : List DeferredPacket) :
    (raise prev it l).length = l.length := by
  fun_induction raise prev it l with
  | case1 => rfl
  | case2 it prev l x dp _ _ _ ih => rw [ih, length_set, length_set]
  | case3 _ _ _ _ _ _ _ _ ih => exact ih
  | case4 => rfl

theorem start_mem (e : ℤ) (l : List DeferredPacket) (priority : ℤ) (it : ℕ) :
    l[it + 1]? ∈ (insertionPoint e l priority (it + 1)).2 := by
  unfold insertionPoint
  split <;> exact mem_cons_self

theorem makeRoom_some {R : QueuedPrefetcher} (h : Q.makeRoom P = some R) :
    R.looked = Q.looked ∧ (Q.pfq = [] → R = Q) ∧ (Q.pfq ≠ [] → R.pfq ≠ []) := by
  have hsize := P.two_le
  unfold makeRoom at h
  split at h
  case isTrue hfull =>
    rcases Option.ite_none_left_eq_some.1 h with ⟨-, h⟩
    cases h
    refine ⟨rfl, fun hnil => ?_, fun _ hnil => ?_⟩
    · rw [hnil, length_nil] at hfull
      omega
    · have hlen := congrArg length hnil
      rw [length_eraseIdx, length_nil] at hlen
      split at hlen <;> omega
  case isFalse =>
    cases h
    exact ⟨rfl, fun _ => rfl, id⟩

theorem emplace_looked (dpp : DeferredPacket) :
    none ∈ (Q.emplace P dpp).looked ↔ none ∈ Q.looked ∨ Q.pfq ≠ [] := by
  unfold emplace
  cases hpfq : Q.pfq with
  | nil => simp
  | cons x l =>
    -- the walk starts at the end of the list
    have hmem := start_mem (P.pastEnd (x :: l)) (x :: l) dpp.priority l.length
    have hend : (x :: l)[l.length + 1]? = none := getElem?_eq_none (Nat.le_refl _)
    rw [hend] at hmem
    exact iff_of_true (mem_append_right _ hmem) (.inr (cons_ne_nil x l))

/-- What a candidate can do: it is put into the queue, or the queue keeps its length. -/
theorem insert_cases (h : Q.insert P pkt pf_info = some Q') :
    (Q.Inserts P pkt pf_info ∧ ∃ R dpp, Q.makeRoom P = some R ∧ Q' = R.emplace P dpp) ∨
      ¬ Q.Inserts P pkt pf_info ∧ Q'.looked = Q.looked ∧ Q'.pfq.length = Q.pfq.length ∧
      Q'.dropped = Q.dropped := by
  unfold insert at h
  dsimp only at h
  split at h
  case h_1 it dp hfound =>
    have hnot : ¬ Q.Inserts P pkt pf_info := fun hi => by simp [hi.1] at hfound
    split at h <;> cases h
    · exact .inr ⟨hnot, rfl, by simp [length_raise], rfl⟩
    · exact .inr ⟨hnot, rfl, rfl, rfl⟩
  case h_2 hnone =>
    split at h
    case isTrue hcached =>
      cases h
      exact .inr ⟨fun hi => absurd hcached (by simp [hi.2]), rfl, rfl, rfl⟩
    case isFalse hcached =>
      rcases Option.map_eq_some_iff.1 h with ⟨R, hR, rfl⟩
      exact .inl ⟨⟨hnone, by simpa using hcached⟩, R, _, hR, rfl⟩

/-- An insertion looks past the end exactly when the queue has entries. -/
theorem insert_looked (h : Q.insert P pkt pf_info = some Q') :
    none ∈ Q'.looked ↔ none ∈ Q.looked ∨ Q.Inserts P pkt pf_info ∧ Q.pfq ≠ [] := by
  rcases insert_cases h with ⟨hi, R, dpp, hR, rfl⟩ | ⟨hnot, hlooked, -⟩
  · rcases makeRoom_some hR with ⟨hlooked, hempty, hkept⟩
    have hnil : R.pfq ≠ [] ↔ Q.pfq ≠ [] := ⟨fun hne hnil => hne (hempty hnil ▸ hnil), hkept⟩
    rw [emplace_looked, hlooked, hnil, and_iff_right hi]
  · simp [hnot, hlooked]

theorem Short.insert (hQ : Q.Short) (h : Q.insert P pkt pf_info = some Q') : Q'.Short := by
  intro hin
  rw [insert_looked h, not_or, not_and, not_not] at hin
  have hshort := hQ hin.1
  rcases insert_cases h with ⟨hi, R, dpp, hR, rfl⟩ | ⟨-, -, hlength, hdropped⟩
  · have hnil := hin.2 hi
    rw [(makeRoom_some hR).2.1 hnil, emplace, if_pos (by rw [hnil]; rfl)]
    exact ⟨Nat.le_refl 1, hshort.2⟩
  · rwa [hlength, hdropped]

theorem Short.squash (hQ : Q.Short) (pkt : Access) :
    (Q.squash P pkt).Short ∧ (Q.squash P pkt).looked = Q.looked := by
  unfold QueuedPrefetcher.squash
  split
  · exact ⟨fun hin => ⟨Nat.le_trans (length_filter_le _ _) (hQ hin).1, (hQ hin).2⟩, rfl⟩
  · exact ⟨hQ, rfl⟩

/-- A call keeps the queue short, and it looks past the end exactly when it puts a prefetch behind
another. -/
theorem Short.step {c : Call} (hQ : Q.Short) (h : Q.step P c = some Q') :
    Q'.Short ∧ (none ∉ Q.looked → (none ∉ Q'.looked ↔ Q.IntoEmpty P c)) := by
  cases c with
  | notify pkt =>
    have h : (if pkt.observed
        then pkt.addresses.foldlM (QueuedPrefetcher.insert P pkt) (Q.squash P pkt) else some Q) =
        some Q' := by simpa [QueuedPrefetcher.step, notify, Function.comp_def] using h
    rcases hQ.squash pkt with ⟨hshort, hlooked⟩
    split at h
    case isTrue hobserved =>
      refine ⟨foldlM_invariant (fun _ _ _ _ => Short.insert) hshort h, fun hin => ?_⟩
      have hlost : ∀ a ∈ pkt.addresses, ∀ s s' : QueuedPrefetcher, s.Short → ¬ none ∉ s.looked →
          s.insert P pkt a = some s' → ¬ none ∉ s'.looked := by
        intro a _ s s' _ hs h
        rw [not_not] at hs ⊢
        exact (insert_looked h).2 (.inl hs)
      refine (foldlM_iff_throughout (fun _ _ _ _ => Short.insert) hlost ?_ hshort (hlooked ▸ hin)
        h).trans ⟨fun hG _ => hG, fun hG => hG hobserved⟩
      intro a _ s s' _ hs h
      rw [insert_looked h, not_or, and_iff_right hs, not_and, not_not]
    case isFalse hobserved =>
      cases h
      exact ⟨hQ, fun hin => iff_of_true hin fun h => absurd h hobserved⟩
  | getPacket =>
    cases h
    refine ⟨fun hin => ⟨Nat.le_trans ?_ (hQ hin).1, (hQ hin).2⟩, fun hin => iff_of_true hin trivial⟩
    simp [getPacket]

/-- The queue is in order in all states of a run exactly when each prefetch is put into an empty
queue. -/
theorem orderly_iff_intoEmpty (P : Params) (calls : List Call) :
    Always (step P) (Orderly P) {} calls ↔ Throughout (step P) (IntoEmpty P) {} calls := by
  have hstart : Short {} := fun _ => ⟨Nat.zero_le 1, rfl⟩
  refine always_iff_throughout (fun _ _ _ hQ h => (hQ.step h).1) ?_ hstart
    (hstart.orderly_iff.2 not_mem_nil)
  intro Q c Q' hQ hord h
  rcases hQ.step h with ⟨hQ', hiff⟩
  exact hQ'.orderly_iff.trans (hiff hord.inside)

end Order

/-- A queue of four entries that is neither filtered nor squashed, over memory that reads as
zero. -/
def plain : Params := ⟨64, 4, 1, 1, false, false, false, fun _ => 0, by decide⟩

def candidate (priority : ℤ) : Call :=
  .notify ⟨0, false, true, 0, [(0, priority)], fun _ _ => false⟩

/-- The walk for the third prefetch stops on the second, which is higher, and puts the third before
it. -/
theorem lower_before_higher :
    ([candidate 5, candidate 4, candidate 2].foldlM (step plain) {}).map (fun Q =>
        (Q.pfq.map (·.priority), Q.looked.map (·.map (·.priority)))) =
      some ([5, 2, 4], [none, none, some 4]) ∧
    ¬ Always (step plain) (Orderly plain) {} [candidate 5, candidate 4, candidate 2] := by
  refine ⟨by decide, fun h => ?_⟩
  have hlast := h.last rfl
  exact absurd hlast.sorted (by decide)

end QueuedPrefetcher
end EnocGem5.Mem.Prefetch

import EnocGem5.Ruby.BufferSession

/-!
# BufferOrder — the order in which messages leave a buffer

The front of the heap is the message with the least key, and no message is lost. In a strict-FIFO
buffer arrival times do not go down, so that the messages leave in the order in which they came.
Messages of one address keep their order even when some of them are stalled, provided that the
messages of a stalled address wait, and that a reanalysis comes before the arrival times of those
that wait in the heap.

The last condition is needed: reanalyzed messages get the time of the call and new counters, so they
come after messages whose time has been reached and which nobody has looked at yet
(`overtaken_by_younger`). The order also needs `m_last_arrival_time`, which is not kept up to date
while a cache trace warms up the system.
-/

namespace EnocGem5.Ruby.BufferSession

open Lib List MessageBuffer StallMap
open scoped List

variable (address : MsgPtr → ℕ) (S : BufferSession)

/-- The front is the least message, and every message that has come is waiting, stalled or gone. -/
def Complete : Prop :=
  (∀ m rest, S.buffer.prioHeap = m :: rest → ∀ m' ∈ rest, S.buffer.key m < S.buffer.key m')
    ∧ (S.dequeued ++ (S.buffer.prioHeap ++ S.buffer.stallMsgMap.all)).Perm S.enqueued

/-- The messages of an address, in the order of a list. -/
def ofAddress (ms : List MsgPtr) (a : ℕ) : List MsgPtr := ms.filter (address · = a)

/-- The messages of each address have left in the order in which they came. -/
def InOrder : Prop := ∀ a, ofAddress address S.dequeued a <+: ofAddress address S.enqueued a

/-- Enqueues outside the warm-up, and dequeues. -/
def Fifo : BufferCall → Prop
  | .areNSlotsAvailable _ => True
  | .enqueue warmup .. => warmup = false
  | .dequeue _ => True
  | _ => False

instance : ∀ c, Decidable (Fifo c)
  | .areNSlotsAvailable _ | .dequeue _ => isTrue trivial
  | .enqueue warmup .. => inferInstanceAs (Decidable (warmup = false))
  | .recycle .. | .stallMessage .. | .reanalyzeMessages .. | .reanalyzeAllMessages _ => isFalse id

/-- What a controller does that stalls messages: a message is stalled for its address when it
reaches the front, and none is dequeued while others of its address are stalled. -/
def Disciplined : BufferCall → Prop
  | .enqueue warmup .. => warmup = false
  | .dequeue _ => ∀ m ∈ S.buffer.prioHeap.head?, S.buffer.stallMsgMap.messages (address m) = []
  | .recycle .. => False
  | .stallMessage addr _ => ∀ m ∈ S.buffer.prioHeap.head?, address m = addr
  | _ => True

instance : ∀ c, Decidable (S.Disciplined address c)
  | .areNSlotsAvailable _ | .reanalyzeMessages .. | .reanalyzeAllMessages _ => isTrue trivial
  | .enqueue warmup .. => inferInstanceAs (Decidable (warmup = false))
  | .dequeue _ | .stallMessage _ _ => inferInstanceAs (Decidable (∀ m ∈ S.buffer.prioHeap.head?, _))
  | .recycle .. => isFalse id

/-- A reanalysis comes before the arrival of the messages of its addresses that wait in the heap. -/
def Timely : BufferCall → Prop
  | .reanalyzeMessages addr t =>
    ∀ m ∈ S.buffer.prioHeap, address m = addr → t < (S.buffer.msgs m).lastEnqueueTime
  | .reanalyzeAllMessages t =>
    ∀ m ∈ S.buffer.prioHeap, S.buffer.stallMsgMap.messages (address m) ≠ [] →
      t < (S.buffer.msgs m).lastEnqueueTime
  | _ => True

instance : ∀ c, Decidable (S.Timely address c)
  | .areNSlotsAvailable _ | .enqueue .. | .dequeue _ | .recycle .. | .stallMessage .. =>
    isTrue trivial
  | .reanalyzeMessages _ _ | .reanalyzeAllMessages _ =>
    inferInstanceAs (Decidable (∀ m ∈ S.buffer.prioHeap, _ → _))

/-! ## Nothing is lost -/

variable {address S} {H : HeapOps MsgPtr (ℕ ×ₗ ℕ)} {cfg : BufferConfig} {S' : BufferSession}
  {c : BufferCall}

def held (B : MessageBuffer) : List MsgPtr := B.prioHeap ++ B.stallMsgMap.all

theorem call_held (h : S.buffer.Sound) (hfresh : S.Fresh c) {B : MessageBuffer}
    (hB : S.call H cfg c = some B) : (S.leaves c ++ held B).Perm (held S.buffer ++ c.enters) := by
  unfold held
  cases c with
  | areNSlotsAvailable t =>
    cases hB
    simp [BufferSession.leaves, BufferCall.enters]
  | enqueue warmup m t delta random =>
    have hperm := (h.heaped.enqueue hfresh.not_mem hB).2
    have hmap : B.stallMsgMap = S.buffer.stallMsgMap := by
      rw [(enqueue_eq_some hB).2.2]
      rfl
    rw [hmap]
    exact (hperm.append_right _).trans (perm_append_singleton m _).symm
  | dequeue t =>
    rcases Option.map_eq_some_iff.1 hB with ⟨⟨delay, C⟩, hC, rfl⟩
    rcases h.heaped.dequeue hC with ⟨m, rest, hd⟩
    have hleaves : S.leaves (.dequeue t) = [m] := by
      unfold BufferSession.leaves
      rw [hd.heap]
      rfl
    rw [hleaves, hd.heap, hd.stallMsgMap]
    change (m :: (C.prioHeap ++ S.buffer.stallMsgMap.all)).Perm
      (m :: (rest ++ S.buffer.stallMsgMap.all) ++ [])
    rw [append_nil]
    exact (hd.perm.append_right _).cons m
  | recycle t latency =>
    rcases h.heaped.recycle hB with ⟨m, _, -, -, -, hperm, rfl⟩
    change (_ ++ S.buffer.stallMsgMap.all).Perm
      (S.buffer.prioHeap ++ S.buffer.stallMsgMap.all ++ [])
    rw [append_nil]
    exact hperm.append_right _
  | stallMessage addr t =>
    rcases h.stallMessage hB with ⟨m, rest, C, hd, -, rfl⟩
    change (C.prioHeap ++ (C.stallMsgMap.pushBack addr m).all).Perm
      (S.buffer.prioHeap ++ S.buffer.stallMsgMap.all ++ [])
    rw [append_nil, hd.stallMsgMap, hd.heap]
    exact (hd.perm.append (all_pushBack _ addr m)).trans perm_middle
  | reanalyzeMessages addr t =>
    rw [reanalyzeMessages_eq_some hB]
    have hall := all_erase S.buffer.stallMsgMap addr
    rcases h.putBack hall h.sorted.erase with ⟨-, hre, -, hheap, -⟩
    change (_ ++ (S.buffer.stallMsgMap.erase addr).all).Perm
      (S.buffer.prioHeap ++ S.buffer.stallMsgMap.all ++ [])
    rw [append_nil, hheap]
    refine (hre.perm.append_right _).trans ?_
    rw [append_assoc]
    exact (Perm.append_left _ hall).symm
  | reanalyzeAllMessages t =>
    rw [reanalyzeAllMessages_eq_some hB]
    rcases h.putBack (all_perm_nil _) sorted_nil with ⟨-, hre, -, hheap, -⟩
    change (_ ++ []).Perm (S.buffer.prioHeap ++ S.buffer.stallMsgMap.all ++ [])
    rw [append_nil, append_nil, hheap]
    exact hre.perm

/-- The part of the history that counts messages. -/
def Kept (S : BufferSession) : Prop :=
  S.buffer.Sound ∧ (S.dequeued ++ held S.buffer).Perm S.enqueued

theorem Kept.complete (h : S.Kept) : S.Complete :=
  ⟨fun _ _ hheap _ hm' => h.1.heaped.front_lt hheap hm', h.2⟩

theorem Kept.step (h : S.Kept) (hfresh : S.Fresh c) (hS : S.step H cfg c = some S') : S'.Kept := by
  rcases step_eq_some hS with ⟨B, hB, rfl⟩
  refine ⟨call_sound h.1 hfresh hB, ?_⟩
  calc
    S.dequeued ++ S.leaves c ++ held B
        = S.dequeued ++ (S.leaves c ++ held B) := append_assoc ..
    _ ~ S.dequeued ++ (held S.buffer ++ c.enters) := Perm.append_left _ (call_held h.1 hfresh hB)
    _ = S.dequeued ++ held S.buffer ++ c.enters := (append_assoc ..).symm
    _ ~ S.enqueued ++ c.enters := h.2.append_right _

theorem kept_start (msgs : MsgPtr → Message) : (start msgs).Kept :=
  ⟨sound_empty msgs, List.Perm.refl _⟩

/-! ## The messages of an address -/

variable {warmup : Bool} {delta random addr bound : ℕ} {map : StallMap} {B C : MessageBuffer}
  {a t : ℕ} {m : MsgPtr} {W ms rest : List MsgPtr}

theorem ofAddress_append (l l' : List MsgPtr) :
    ofAddress address (l ++ l') a = ofAddress address l a ++ ofAddress address l' a :=
  filter_append ..

theorem ofAddress_cons_self (m : MsgPtr) (l : List MsgPtr) :
    ofAddress address (m :: l) (address m) = m :: ofAddress address l (address m) :=
  filter_cons_of_pos (decide_eq_true rfl)

theorem ofAddress_cons_of_ne (hne : address m ≠ a) (l : List MsgPtr) :
    ofAddress address (m :: l) a = ofAddress address l a :=
  filter_cons_of_neg (by simpa using hne)

theorem mem_ofAddress {l : List MsgPtr} : m ∈ ofAddress address l a ↔ m ∈ l ∧ address m = a := by
  simp [ofAddress]

/-- The messages of an address in the heap, in the order of their keys. -/
structure Waiting (address : MsgPtr → ℕ) (B : MessageBuffer) (a : ℕ) (W : List MsgPtr) : Prop where
  perm : W.Perm (ofAddress address B.prioHeap a)
  sorted : W.Pairwise fun m m' => B.key m < B.key m'

theorem Waiting.mem (h : Waiting address B a W) (hm : m ∈ W) : m ∈ B.prioHeap ∧ address m = a :=
  mem_ofAddress.1 (h.perm.mem_iff.1 hm)

theorem Waiting.sorted_of_keys (h : Waiting address B a W) (hkey : ∀ m ∈ W, C.key m = B.key m) :
    W.Pairwise fun m m' => C.key m < C.key m' := by
  refine List.Pairwise.imp_of_mem (fun {m m'} hm hm' hlt => ?_) h.sorted
  rw [hkey m hm, hkey m' hm']
  exact hlt

theorem Waiting.of_keys (h : Waiting address B a W) (hheap : C.prioHeap.Perm B.prioHeap)
    (hkey : ∀ m ∈ W, C.key m = B.key m) : Waiting address C a W :=
  ⟨h.perm.trans (hheap.symm.filter _), h.sorted_of_keys hkey⟩

/-- The front of the heap comes first among the messages of its address. -/
theorem Waiting.pop (h : Waiting address B (address m) W) (hheaped : B.Heaped)
    (hd : B.Dequeued t m rest C) : ∃ W', W = m :: W' ∧ Waiting address C (address m) W' := by
  have hm : m ∈ W := h.perm.mem_iff.2 (mem_ofAddress.2 ⟨hd.heap ▸ mem_cons_self, rfl⟩)
  cases W with
  | nil => cases hm
  | cons x W' =>
    have hx : x = m := by
      by_contra hne
      rcases mem_cons.1 hm with heq | hm'
      · exact hne heq.symm
      · -- a message before the front would have a smaller key
        have hlt := rel_of_pairwise_cons h.sorted hm'
        have hrest : x ∈ rest := by
          have hmem := (h.mem mem_cons_self).1
          rw [hd.heap] at hmem
          exact (mem_cons.1 hmem).resolve_left hne
        exact absurd hlt (hheaped.front_lt hd.heap hrest).asymm
    subst hx
    refine ⟨W', rfl, ?_, ?_⟩
    · have hperm := h.perm
      rw [hd.heap, ofAddress_cons_self] at hperm
      exact hperm.cons_inv.trans (hd.perm.symm.filter _)
    · have hsorted := (pairwise_cons.1 h.sorted).2
      refine hsorted.imp fun {y z} hlt => ?_
      rw [hd.key, hd.key]
      exact hlt

theorem Waiting.pop_of_ne (h : Waiting address B a W) (hne : address m ≠ a)
    (hd : B.Dequeued t m rest C) : Waiting address C a W := by
  refine ⟨?_, h.sorted_of_keys fun y _ => hd.key y⟩
  have hperm := h.perm
  rw [hd.heap, ofAddress_cons_of_ne hne] at hperm
  exact hperm.trans (hd.perm.symm.filter _)

theorem Waiting.push (h : Waiting address B (address m) W)
    (hheap : C.prioHeap.Perm (m :: B.prioHeap)) (hkey : ∀ m' ∈ W, C.key m' = B.key m')
    (hlast : ∀ m' ∈ W, B.key m' < C.key m) : Waiting address C (address m) (W ++ [m]) := by
  refine ⟨?_, ?_⟩
  · have hperm := hheap.filter (p := (address · = address m))
    refine (perm_append_singleton m W).trans ((h.perm.cons m).trans ?_)
    exact (hperm.trans (Perm.of_eq (ofAddress_cons_self m B.prioHeap))).symm
  · refine pairwise_append.2 ⟨h.sorted_of_keys hkey, pairwise_singleton _ _, fun m' hm' x hx => ?_⟩
    rw [mem_singleton.1 hx, hkey m' hm']
    exact hlast m' hm'

/-- Messages that go back come first, if those of their address that wait arrive later. -/
theorem Waiting.putBack (h : Waiting address B a W) (hre : B.Reanalyzed ms t C)
    (hnodup : (B.prioHeap ++ ms).Nodup)
    (hlate : ofAddress address ms a ≠ [] → ∀ m ∈ W, t < (B.msgs m).lastEnqueueTime) :
    Waiting address C a (ofAddress address ms a ++ W) := by
  have hkey : ∀ m ∈ W, C.msgs m = B.msgs m := by
    intro m hm
    refine hre.frame m fun hmem => ?_
    exact (nodup_append.1 hnodup).2.2 m (h.mem hm).1 m hmem rfl
  refine ⟨?_, ?_⟩
  · have hperm := hre.perm.filter (p := (address · = a))
    rw [filter_append] at hperm
    exact (perm_append_comm.trans (h.perm.append_right _)).trans hperm.symm
  · refine pairwise_append.2 ⟨hre.sorted.sublist filter_sublist, ?_, fun x hx m hm => ?_⟩
    · exact h.sorted_of_keys fun m hm => congrArg Message.key (hkey m hm)
    · unfold key Message.key
      rw [hre.time x (mem_ofAddress.1 hx).1, hkey m hm]
      exact Prod.Lex.toLex_lt_toLex.2 (.inl (hlate (ne_nil_of_mem hx) m hm))

/-- For each address: the messages that have left, those that are stalled and those that wait are
the ones that have come, in this order. -/
def Lined (address : MsgPtr → ℕ) (S : BufferSession) : Prop :=
  ∀ a, ∃ W, Waiting address S.buffer a W ∧ ofAddress address S.enqueued a
    = ofAddress address S.dequeued a ++ S.buffer.stallMsgMap.messages a ++ W

theorem Lined.inOrder (h : S.Lined address) : S.InOrder address := by
  intro a
  rcases h a with ⟨W, -, heq⟩
  rw [heq, append_assoc]
  exact prefix_append ..

theorem Lined.address_of_stalled (h : S.Lined address) (hm : m ∈ S.buffer.stallMsgMap.messages a) :
    address m = a := by
  rcases h a with ⟨W, -, heq⟩
  have hmem : m ∈ ofAddress address S.enqueued a := by
    rw [heq]
    exact mem_append_left _ (mem_append_right _ hm)
  exact (mem_ofAddress.1 hmem).2

theorem keys_enqueue (hB : S.buffer.enqueue H cfg warmup m t delta random = some B) :
    (B.msgs m).lastEnqueueTime = S.buffer.arrivalTime cfg t delta random
      ∧ (B.msgs m).msgCounter = S.buffer.msgCounter + 1
      ∧ ∀ m' ≠ m, B.msgs m' = S.buffer.msgs m' := by
  rcases enqueue_eq_some hB with ⟨-, -, rfl⟩
  have hself : (S.buffer.countEnqueue t).setMsg m
      (S.buffer.stamped m t (S.buffer.arrivalTime cfg t delta random)) m
        = S.buffer.stamped m t (S.buffer.arrivalTime cfg t delta random) := setMsg_self _
  refine ⟨?_, ?_, fun m' hne => setMsg_of_ne _ hne⟩
  · exact congrArg Message.lastEnqueueTime hself
  · exact congrArg Message.msgCounter hself

theorem ofAddress_all (haddr : ∀ entry ∈ map, ∀ m ∈ entry.2, address m = entry.1) :
    ofAddress address map.all a = map.messages a := by
  induction map with
  | nil => rfl
  | cons entry rest ih =>
    have hrest := ih fun other hother => haddr other (mem_cons_of_mem entry hother)
    have hfirst := haddr entry mem_cons_self
    change ofAddress address (entry.2 ++ StallMap.all rest) a = _
    rw [ofAddress_append, hrest, messages_cons]
    congr 1
    split
    case isTrue heq => exact filter_eq_self.2 fun m hm => decide_eq_true ((hfirst m hm).trans heq)
    case isFalse hne => exact filter_eq_nil_iff.2 fun m hm => by simpa using hfirst m hm ▸ hne

section Calls

variable (h : S.Lined address) (hsound : S.buffer.Sound)
include h hsound

theorem Lined.enqueue
    (hfresh : m ∉ S.buffer.prioHeap) (hB : S.buffer.enqueue H cfg warmup m t delta random = some B)
    (hlate : ∀ m' ∈ S.buffer.prioHeap,
      (S.buffer.msgs m').lastEnqueueTime ≤ S.buffer.arrivalTime cfg t delta random) :
    (S.after cfg (.enqueue warmup m t delta random) B).Lined address := by
  have hperm := (hsound.heaped.enqueue hfresh hB).2
  rcases keys_enqueue hB with ⟨htime, hcounter, hother⟩
  have hmap : B.stallMsgMap = S.buffer.stallMsgMap := by
    rw [(enqueue_eq_some hB).2.2]
    rfl
  have hkey : ∀ m' ∈ S.buffer.prioHeap, B.key m' = S.buffer.key m' := by
    intro m' hm'
    exact congrArg Message.key (hother m' fun heq => hfresh (heq ▸ hm'))
  have hlast : ∀ m' ∈ S.buffer.prioHeap, S.buffer.key m' < B.key m := by
    intro m' hm'
    unfold key Message.key
    rw [htime, hcounter]
    rcases (hlate m' hm').lt_or_eq with hlt | heq
    · exact Prod.Lex.toLex_lt_toLex.2 (.inl hlt)
    · exact Prod.Lex.toLex_lt_toLex.2 (.inr ⟨heq, Nat.lt_succ_of_le (hsound.heaped.bounded m' hm')⟩)
  intro a
  rcases h a with ⟨W, hW, heq⟩
  change ∃ W, Waiting address B a W ∧ ofAddress address (S.enqueued ++ [m]) a
    = ofAddress address (S.dequeued ++ []) a ++ B.stallMsgMap.messages a ++ W
  rw [append_nil, hmap, ofAddress_append, heq]
  by_cases hm : address m = a
  · subst hm
    refine ⟨W ++ [m], hW.push hperm (fun m' hm' => hkey m' (hW.mem hm').1) (fun m' hm' =>
      hlast m' (hW.mem hm').1), ?_⟩
    rw [ofAddress_cons_self, append_assoc _ W]
    rfl
  · refine ⟨W, ⟨hW.perm.trans ?_, hW.sorted_of_keys fun m' hm' => hkey m' (hW.mem hm').1⟩, ?_⟩
    · have hfilter := hperm.filter (p := (address · = a))
      exact (hfilter.trans (Perm.of_eq (ofAddress_cons_of_ne hm S.buffer.prioHeap))).symm
    · rw [ofAddress_cons_of_ne hm]
      exact append_nil _

theorem Lined.dequeue {delay : ℕ} (hB : S.buffer.dequeue H t = some (delay, B))
    (hnone : ∀ m ∈ S.buffer.prioHeap.head?, S.buffer.stallMsgMap.messages (address m) = []) :
    (S.after cfg (.dequeue t) B).Lined address := by
  rcases hsound.heaped.dequeue hB with ⟨m, rest, hd⟩
  have hstalled := hnone m (by rw [hd.heap]; rfl)
  intro a
  rcases h a with ⟨W, hW, heq⟩
  change ∃ W, Waiting address B a W ∧ ofAddress address (S.enqueued ++ []) a
    = ofAddress address (S.dequeued ++ S.buffer.prioHeap.take 1) a ++ B.stallMsgMap.messages a ++ W
  rw [hd.heap, hd.stallMsgMap, append_nil, ofAddress_append, heq]
  by_cases hm : address m = a
  · subst hm
    rcases hW.pop hsound.heaped hd with ⟨W', rfl, hW'⟩
    refine ⟨W', hW', ?_⟩
    rw [hstalled]
    change _ = _ ++ ofAddress address (m :: []) (address m) ++ [] ++ W'
    rw [ofAddress_cons_self, append_nil, append_nil, append_assoc]
    rfl
  · refine ⟨W, hW.pop_of_ne hm hd, ?_⟩
    change _ = _ ++ ofAddress address (m :: []) a ++ _ ++ W
    rw [ofAddress_cons_of_ne hm]
    congr 2
    exact (append_nil _).symm

theorem Lined.stallMessage (hB : S.buffer.stallMessage H cfg addr t = some B)
    (haddr : ∀ m ∈ S.buffer.prioHeap.head?, address m = addr) :
    (S.after cfg (.stallMessage addr t) B).Lined address := by
  rcases hsound.stallMessage hB with ⟨m, rest, C, hd, -, rfl⟩
  have hm : address m = addr := haddr m (by rw [hd.heap]; rfl)
  subst hm
  intro a
  rcases h a with ⟨W, hW, heq⟩
  -- the stall map is not looked at by `Waiting`
  suffices hlined : ∃ W, Waiting address C a W ∧ ofAddress address (S.enqueued ++ []) a
      = ofAddress address (S.dequeued ++ []) a
      ++ (C.stallMsgMap.pushBack (address m) m).messages a ++ W by
    rcases hlined with ⟨W, hW, heq⟩
    exact ⟨W, hW.of_keys (List.Perm.refl _) fun _ _ => rfl, heq⟩
  rw [hd.stallMsgMap, append_nil, append_nil, heq]
  by_cases hm : address m = a
  · subst hm
    rcases hW.pop hsound.heaped hd with ⟨W', rfl, hW'⟩
    refine ⟨W', hW', ?_⟩
    rw [hsound.sorted.messages_pushBack, ← append_assoc _ _ [m], append_assoc _ [m] W']
    rfl
  · refine ⟨W, hW.pop_of_ne hm hd, ?_⟩
    rw [messages_pushBack_of_ne (Ne.symm hm)]

/-- All stalled messages of an address go back, or none of them. -/
theorem Lined.putBack (hall : S.buffer.stallMsgMap.all.Perm (ms ++ map.all)) (hmap : map.Sorted)
    (hparts : ∀ a, ofAddress address ms a = S.buffer.stallMsgMap.messages a ∧ map.messages a = []
      ∨ ofAddress address ms a = [] ∧ map.messages a = S.buffer.stallMsgMap.messages a)
    (hlate : ∀ m ∈ S.buffer.prioHeap, ofAddress address ms (address m) ≠ [] →
    t < (S.buffer.msgs m).lastEnqueueTime) (henters : c.enters = []) (hleaves : S.leaves c = []) :
    (S.after cfg c (MessageBuffer.putBack H S.buffer ms t map)).Lined address := by
  rcases hsound.putBack hall hmap with ⟨-, hre, hmsgs, hheap, -⟩
  have hnodup : (S.buffer.prioHeap ++ ms).Nodup := by
    have hnodup := hsound.nodup
    rw [(Perm.append_left _ hall).nodup_iff, ← append_assoc] at hnodup
    exact (nodup_append.1 hnodup).1
  intro a
  rcases h a with ⟨W, hW, heq⟩
  have hW' : Waiting address (MessageBuffer.putBack H S.buffer ms t map) a
      (ofAddress address ms a ++ W) := by
    have hback := hW.putBack hre hnodup fun hne m hm =>
      hlate m (hW.mem hm).1 (by rw [(hW.mem hm).2]; exact hne)
    refine hback.of_keys (Perm.of_eq hheap) fun m _ => ?_
    unfold key
    rw [hmsgs]
  refine ⟨_, hW', ?_⟩
  change ofAddress address (S.enqueued ++ c.enters) a
    = ofAddress address (S.dequeued ++ S.leaves c) a
    ++ map.messages a ++ (ofAddress address ms a ++ W)
  rw [henters, hleaves, append_nil, append_nil, heq]
  rcases hparts a with ⟨hms, hnil⟩ | ⟨hnil, hsame⟩
  · rw [hms, hnil, append_nil, append_assoc]
  · rw [hnil, hsame, nil_append]

theorem Lined.reanalyzeMessages
    (hlate : ∀ m ∈ S.buffer.prioHeap, address m = addr → t < (S.buffer.msgs m).lastEnqueueTime) :
    (S.after cfg (.reanalyzeMessages addr t) (MessageBuffer.putBack H S.buffer
      (S.buffer.stallMsgMap.messages addr) t (S.buffer.stallMsgMap.erase addr))).Lined address := by
  have hself : ∀ a, a = addr → ofAddress address (S.buffer.stallMsgMap.messages addr) a
      = S.buffer.stallMsgMap.messages addr := by
    intro a ha
    exact filter_eq_self.2 fun m hm => decide_eq_true ((h.address_of_stalled hm).trans ha.symm)
  have hother : ∀ a, a ≠ addr → ofAddress address (S.buffer.stallMsgMap.messages addr) a = [] := by
    intro a ha
    exact filter_eq_nil_iff.2 fun m hm => by simpa using h.address_of_stalled hm ▸ ha.symm
  refine h.putBack hsound (all_erase _ addr) hsound.sorted.erase (fun a => ?_) (fun m hm hne => ?_)
    rfl rfl
  · by_cases ha : a = addr
    · subst ha
      exact .inl ⟨hself a rfl, messages_erase_self⟩
    · exact .inr ⟨hother a ha, messages_erase_of_ne ha⟩
  · refine hlate m hm ?_
    by_contra ha
    exact hne (hother _ ha)

theorem Lined.reanalyzeAllMessages
    (hlate : ∀ m ∈ S.buffer.prioHeap, S.buffer.stallMsgMap.messages (address m) ≠ [] →
      t < (S.buffer.msgs m).lastEnqueueTime) :
    (S.after cfg (.reanalyzeAllMessages t)
      (MessageBuffer.putBack H S.buffer S.buffer.stallMsgMap.all t [])).Lined address := by
  have hstalled : ∀ a, ofAddress address S.buffer.stallMsgMap.all a =
      S.buffer.stallMsgMap.messages a := by
    intro a
    refine ofAddress_all fun entry hentry m hm => h.address_of_stalled ?_
    exact mem_flatMap.2 ⟨entry, mem_filter.2 ⟨hentry, decide_eq_true rfl⟩, hm⟩
  exact h.putBack hsound (all_perm_nil _) sorted_nil (fun a => .inl ⟨hstalled a, rfl⟩)
    (fun m hm hne => hlate m hm (hstalled _ ▸ hne)) rfl rfl

end Calls

/-! ## Runs -/

theorem lined_start (msgs : MsgPtr → Message) : (start msgs).Lined address :=
  fun _ => ⟨[], ⟨List.Perm.refl _, List.Pairwise.nil⟩, rfl⟩

theorem Lined.areNSlotsAvailable (h : S.Lined address) :
    (S.after cfg (.areNSlotsAvailable t) S.buffer).Lined address := by
  intro a
  rcases h a with ⟨W, hW, heq⟩
  refine ⟨W, hW, ?_⟩
  change ofAddress _ (S.enqueued ++ []) a = ofAddress _ (S.dequeued ++ []) a ++ _ ++ W
  rw [append_nil, append_nil]
  exact heq

theorem le_lastArrival (B : MessageBuffer) (t : ℕ) : B.lastArrivalTime ≤ B.lastArrival cfg t := by
  unfold lastArrival
  split
  · exact Nat.le_max_left _ _
  · exact Nat.le_refl _

/-- The times in the heap are not later than `bound`. -/
def Bounded (B : MessageBuffer) (bound : ℕ) : Prop :=
  ∀ m ∈ B.prioHeap, (B.msgs m).lastEnqueueTime ≤ bound

theorem Bounded.enqueue (h : Bounded S.buffer bound) (hsound : S.buffer.Sound)
    (hfresh : m ∉ S.buffer.prioHeap) (hB : S.buffer.enqueue H cfg false m t delta random = some B)
    (hbound : bound ≤ S.buffer.arrivalTime cfg t delta random) : Bounded B B.lastArrivalTime := by
  have harrival : B.lastArrivalTime = S.buffer.arrivalTime cfg t delta random := by
    rw [(enqueue_eq_some hB).2.2]
    rfl
  have hperm := (hsound.heaped.enqueue hfresh hB).2
  rcases keys_enqueue hB with ⟨htime, -, hother⟩
  rw [harrival]
  intro m' hm'
  rcases mem_cons.1 (hperm.mem_iff.1 hm') with rfl | hm'
  · exact htime.le
  · rw [hother m' fun heq => hfresh (heq ▸ hm')]
    exact (h m' hm').trans hbound

theorem Bounded.pop (h : Bounded B bound) (hd : B.Dequeued t m rest C) : Bounded C bound := by
  intro m' hm'
  have htime : (C.msgs m').lastEnqueueTime = (B.msgs m').lastEnqueueTime :=
    congrArg (fun k => (ofLex k).1) (hd.key m')
  rw [htime]
  exact h m' (hd.heap ▸ mem_cons_of_mem m (hd.perm.mem_iff.1 hm'))

theorem Bounded.mono {bound' : ℕ} (h : Bounded B bound) (hle : bound ≤ bound') : Bounded B bound' :=
  fun m hm => (h m hm).trans hle

/-- A strict-FIFO buffer whose messages are only enqueued and dequeued: times go up to the last
arrival. -/
structure FifoInv (S : BufferSession) : Prop where
  sound : S.buffer.Sound
  lined : S.Lined fun _ => 0
  empty : S.buffer.stallMsgMap = []
  bounded : Bounded S.buffer S.buffer.lastArrivalTime

theorem FifoInv.step (h : S.FifoInv) (hstrict : cfg.strictFifo = true) (hfresh : S.Fresh c)
    (hfifo : Fifo c) (hS : S.step H cfg c = some S') : S'.FifoInv := by
  rcases step_eq_some hS with ⟨B, hB, rfl⟩
  cases c with
  | areNSlotsAvailable t =>
    cases hB
    exact { h with lined := h.lined.areNSlotsAvailable }
  | enqueue warmup m t delta random =>
    rcases enqueue_eq_some hB with ⟨-, hlast, hBeq⟩
    have hle := (le_lastArrival S.buffer t).trans (hlast hstrict)
    obtain rfl : warmup = false := hfifo
    refine ⟨call_sound h.sound hfresh hB,
      h.lined.enqueue h.sound hfresh.not_mem hB (h.bounded.mono hle), ?_,
      h.bounded.enqueue h.sound hfresh.not_mem hB hle⟩
    rw [hBeq]
    exact h.empty
  | dequeue t =>
    rcases Option.map_eq_some_iff.1 hB with ⟨⟨delay, C⟩, hC, rfl⟩
    rcases h.sound.heaped.dequeue hC with ⟨m, rest, hd⟩
    refine ⟨h.sound.dequeue hC, h.lined.dequeue h.sound hC fun m _ => ?_,
      hd.stallMsgMap.trans h.empty, ?_⟩
    · rw [h.empty]
      rfl
    · change Bounded C C.lastArrivalTime
      rw [hd.lastArrivalTime]
      exact h.bounded.pop hd
  | _ => exact hfifo.elim

theorem FifoInv.dequeued_isPrefix (h : S.FifoInv) : S.dequeued <+: S.enqueued := by
  have hprefix := h.lined.inOrder 0
  have hall : ∀ ms : List MsgPtr, ofAddress (fun _ => 0) ms 0 = ms := fun ms => filter_true ms
  rwa [hall, hall] at hprefix

/-- A strict-FIFO buffer with stalled messages: times go up to the last arrival or, after a
reanalysis, to the present. -/
structure StallInv (address : MsgPtr → ℕ) (S : BufferSession) : Prop where
  sound : S.buffer.Sound
  lined : S.Lined address
  bounded : Bounded S.buffer (max S.buffer.lastArrivalTime S.now)

theorem StallInv.putBack (h : S.StallInv address) (htick : S.now ≤ t)
    (hall : S.buffer.stallMsgMap.all.Perm (ms ++ map.all)) (hmap : map.Sorted) :
    Bounded (MessageBuffer.putBack H S.buffer ms t map)
      (max (MessageBuffer.putBack H S.buffer ms t map).lastArrivalTime t) := by
  rcases h.sound.putBack hall hmap with ⟨-, hre, hmsgs, hheap, hcounts⟩
  have hlast := hcounts.2.2.2.2
  intro m hm
  rw [hheap] at hm
  rw [hmsgs, hlast]
  by_cases hmem : m ∈ ms
  · rw [hre.time m hmem]
    exact Nat.le_max_right _ _
  · rw [hre.frame m hmem]
    have hold := (mem_append.1 (hre.perm.mem_iff.1 hm)).resolve_right hmem
    exact (h.bounded m hold).trans (max_le_max le_rfl htick)

theorem StallInv.step (h : S.StallInv address) (hstrict : cfg.strictFifo = true)
    (htick : S.now ≤ c.tick) (hfresh : S.Fresh c) (hstall : S.Disciplined address c)
    (htimely : S.Timely address c) (hS : S.step H cfg c = some S') : S'.StallInv address := by
  rcases step_eq_some hS with ⟨B, hB, rfl⟩
  cases c with
  | areNSlotsAvailable t =>
    cases hB
    exact ⟨h.sound, h.lined.areNSlotsAvailable, h.bounded.mono (max_le_max le_rfl htick)⟩
  | enqueue warmup m t delta random =>
    rcases enqueue_eq_some hB with ⟨hfuture, hlast, -⟩
    have hle : max S.buffer.lastArrivalTime S.now ≤ S.buffer.arrivalTime cfg t delta random :=
      max_le ((le_lastArrival S.buffer t).trans (hlast hstrict)) (htick.trans hfuture.le)
    obtain rfl : warmup = false := hstall
    refine ⟨call_sound h.sound hfresh hB,
      h.lined.enqueue h.sound hfresh.not_mem hB (h.bounded.mono hle), ?_⟩
    exact (h.bounded.enqueue h.sound hfresh.not_mem hB hle).mono (Nat.le_max_left _ _)
  | dequeue t =>
    rcases Option.map_eq_some_iff.1 hB with ⟨⟨delay, C⟩, hC, rfl⟩
    rcases h.sound.heaped.dequeue hC with ⟨m, rest, hd⟩
    refine ⟨h.sound.dequeue hC, h.lined.dequeue h.sound hC hstall, ?_⟩
    change Bounded C (max C.lastArrivalTime t)
    rw [hd.lastArrivalTime]
    exact (h.bounded.pop hd).mono (max_le_max le_rfl htick)
  | recycle => exact hstall.elim
  | stallMessage addr t =>
    refine ⟨call_sound h.sound hfresh hB, h.lined.stallMessage h.sound hB hstall, ?_⟩
    rcases h.sound.stallMessage hB with ⟨m, rest, C, hd, -, rfl⟩
    rw [hd.lastArrivalTime]
    exact (h.bounded.pop hd).mono (max_le_max le_rfl htick)
  | reanalyzeMessages addr t =>
    have hsound := call_sound h.sound hfresh hB
    rw [reanalyzeMessages_eq_some hB] at hsound ⊢
    exact ⟨hsound, h.lined.reanalyzeMessages h.sound htimely,
      h.putBack htick (all_erase _ addr) h.sound.sorted.erase⟩
  | reanalyzeAllMessages t =>
    have hsound := call_sound h.sound hfresh hB
    rw [reanalyzeAllMessages_eq_some hB] at hsound ⊢
    exact ⟨hsound, h.lined.reanalyzeAllMessages h.sound htimely,
      h.putBack htick (all_perm_nil _) sorted_nil⟩

/-- In every run the front of the heap is the least message and no message is lost or duplicated. In
a strict-FIFO buffer outside the warm-up, messages that are only enqueued and dequeued leave in
their order, and those of one address do so under a disciplined controller whose reanalyses are
timely. -/
theorem buffer_order (H : HeapOps MsgPtr (ℕ ×ₗ ℕ)) (cfg : BufferConfig) (msgs : MsgPtr → Message)
    (calls : List BufferCall) (hfresh : Throughout (step H cfg) Fresh (start msgs) calls) :
    Always (step H cfg) Complete (start msgs) calls
      ∧ (cfg.strictFifo = true → (∀ c ∈ calls, Fifo c) →
        Always (step H cfg) (fun S => S.dequeued <+: S.enqueued) (start msgs) calls)
      ∧ (cfg.strictFifo = true → ∀ address : MsgPtr → ℕ,
        Throughout (step H cfg)
            (fun S c => S.now ≤ c.tick ∧ S.Disciplined address c ∧ S.Timely address c) (start msgs)
            calls →
          Always (step H cfg) (InOrder address) (start msgs) calls) := by
  refine ⟨?_, fun hstrict hfifo => ?_, fun hstrict address hcalls => ?_⟩
  · exact Always.of_throughout (fun _ => Kept.complete) (fun _ _ _ => Kept.step) (kept_start msgs)
      hfresh
  · have hinv : (start msgs).FifoInv :=
      ⟨sound_empty msgs, lined_start msgs, rfl, forall_mem_nil _⟩
    exact Always.of_throughout (fun _ => FifoInv.dequeued_isPrefix)
      (fun _ _ _ h hc => FifoInv.step h hstrict hc.1 hc.2) hinv
      (hfresh.and (Throughout.of_forall_mem fun c hc _ => hfifo c hc))
  · have hinv : (start msgs).StallInv address :=
      ⟨sound_empty msgs, lined_start msgs, forall_mem_nil _⟩
    exact Always.of_throughout (fun _ h => (StallInv.lined h).inOrder)
      (fun _ _ _ h hc => StallInv.step h hstrict hc.2.1 hc.1 hc.2.2.1 hc.2.2.2) hinv
      (hfresh.and hcalls)

def ordered : BufferConfig where
  maxSize := 0
  strictFifo := true
  randomization := false
  blockSizeBits := 6

/-- Three messages, the last of them for another line. -/
def threeMessages : List BufferCall :=
  [.enqueue false 0 0 1 0, .enqueue false 1 0 2 0, .enqueue false 2 0 2 0]

/-- Message 0 is stalled and goes back before message 1 arrives. -/
def timelyRun : List BufferCall :=
  threeMessages ++ [.stallMessage 0 1, .reanalyzeMessages 0 1, .dequeue 2, .dequeue 2, .dequeue 2]

theorem buffer_order_timely :
    Always (step (HeapOps.sorting MsgPtr (ℕ ×ₗ ℕ)) ordered) Complete
        (start fun _ => { lastEnqueueTime := 0 }) timelyRun
      ∧ Always (step (HeapOps.sorting MsgPtr (ℕ ×ₗ ℕ)) ordered) (fun S => S.dequeued <+: S.enqueued)
        (start fun _ => { lastEnqueueTime := 0 }) (threeMessages ++ [.dequeue 1, .dequeue 2])
      ∧ Always (step (HeapOps.sorting MsgPtr (ℕ ×ₗ ℕ)) ordered) (InOrder fun m => m / 2 * 64)
        (start fun _ => { lastEnqueueTime := 0 }) timelyRun :=
  ⟨(buffer_order _ ordered _ timelyRun (by decide)).1,
    (buffer_order _ ordered _ (threeMessages ++ [.dequeue 1, .dequeue 2]) (by decide)).2.1 rfl
    (by decide), (buffer_order _ ordered _ timelyRun (by decide)).2.2 rfl _ (by decide)⟩

/-- Message 0 is stalled and goes back when message 1, of the same line, has arrived but has not
been looked at. -/
def lateRun : List BufferCall :=
  threeMessages ++ [.stallMessage 0 1, .reanalyzeMessages 0 3, .dequeue 3, .dequeue 3, .dequeue 3]

/-- Message 1 leaves before message 0. -/
theorem overtaken_by_younger :
    Throughout (step (HeapOps.sorting MsgPtr (ℕ ×ₗ ℕ)) ordered)
        (fun S c => S.now ≤ c.tick ∧ S.Fresh c ∧ S.Disciplined (fun m => m / 2 * 64) c)
        (start fun _ => { lastEnqueueTime := 0 }) lateRun
      ∧ (lateRun.foldlM (step (HeapOps.sorting MsgPtr (ℕ ×ₗ ℕ)) ordered)
        (start fun _ => { lastEnqueueTime := 0 })).map (fun S => (S.enqueued, S.dequeued))
          = some ([0, 1, 2], [1, 2, 0]) := by
  decide

end EnocGem5.Ruby.BufferSession

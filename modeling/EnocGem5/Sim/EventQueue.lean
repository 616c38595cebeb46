import EnocGem5.Lib.BinQueue
import EnocGem5.Lib.Linked
import EnocGem5.Lib.Run

/-!
# EventQueue — the linked list of bins

The event queue is a linked list of linked lists: the events with equal time and priority form a
stack through their `nextInBin` links, and the tops of the stacks form a list through their
`nextBin` links. The `nextBin` links of other events are stale.

Events are numbers, a heap maps them to their fields. A call is `none` where an assertion fails,
where the code panics, or where a loop runs longer than there are events. The queue is used by one
thread, so nothing goes through `async_queue`; the memory management of events is left to the
callers.
-/

namespace EnocGem5.Sim

open Lib List Function Option Bin Nat

/-! ## Events -/

/-- `Event`; `scheduled`, `squashed` and `initialized` are its flags. -/
structure Event where
  when : ℕ := 0
  priority : ℤ := 0
  scheduled : Bool := false
  squashed : Bool := false
  initialized : Bool := false
  nextBin : Option ℕ := none
  nextInBin : Option ℕ := none
  deriving DecidableEq, Repr

namespace Event

def lt (l r : Event) : Bool := l.when < r.when || (l.when = r.when && l.priority < r.priority)

def le (l r : Event) : Bool := l.when < r.when || (l.when = r.when && l.priority ≤ r.priority)

def eq (l r : Event) : Bool := l.when = r.when && l.priority = r.priority

/-- Events are ordered by their time, then by their priority. -/
def key (e : Event) : ℕ ×ₗ ℤ := toLex (e.when, e.priority)

variable {l r : Event}

theorem lt_iff : l.lt r = true ↔ l.key < r.key := by
  simp [lt, key, Prod.Lex.toLex_lt_toLex]

theorem le_iff : l.le r = true ↔ l.key ≤ r.key := by
  simp [le, key, Prod.Lex.toLex_le_toLex]

theorem eq_iff : l.eq r = true ↔ l.key = r.key := by
  simp [eq, key]

end Event

/-! ## The queue -/

/-- `EventQueue` and the heap of events; `limit` bounds the addresses of constructed events. -/
structure EventQueue where
  events : ℕ → Event := fun _ => {}
  limit : ℕ := 0
  head : Option ℕ := none
  curTick : ℕ := 0

namespace EventQueue

variable (Q : EventQueue)

def put (e : ℕ) (event : Event) : EventQueue :=
  { Q with events := Function.update Q.events e event }

def nextBin (e : ℕ) : Option ℕ := (Q.events e).nextBin

def nextInBin (e : ℕ) : Option ℕ := (Q.events e).nextInBin

def setNextBin (e : ℕ) (p : Option ℕ) : EventQueue :=
  Q.put e { Q.events e with nextBin := p }

def setNextInBin (e : ℕ) (p : Option ℕ) : EventQueue :=
  Q.put e { Q.events e with nextInBin := p }

/-- `Event::insertBefore`, which returns `event`. -/
def insertBefore (event : ℕ) (curr : Option ℕ) : EventQueue :=
  match curr with
  | none => Q.put event { Q.events event with nextBin := none, nextInBin := none }
  | some c =>
    if (Q.events event).lt (Q.events c) then
      Q.put event { Q.events event with nextBin := some c, nextInBin := none }
    else
      Q.put event { Q.events event with nextBin := (Q.events c).nextBin, nextInBin := some c }

def insert (event : ℕ) : Option EventQueue :=
  match Q.head with
  | none => some { Q.insertBefore event none with head := some event }
  | some head =>
    if (Q.events event).le (Q.events head) then
      some { Q.insertBefore event (some head) with head := some event }
    else
      (walk Q.nextBin (fun curr => !(Q.events curr).lt (Q.events event)) Q.limit head
        (Q.nextBin head)).map fun r => (Q.insertBefore event r.2).setNextBin r.1 (some event)

/-- `Event::removeItem`, with the new top. -/
def removeItem (event top : ℕ) : Option (EventQueue × Option ℕ) :=
  if event = top then
    match Q.nextInBin top with
    | none => some (Q, Q.nextBin top)
    | some next => some (Q.setNextBin next (Q.nextBin top), some next)
  else
    (walk Q.nextInBin (fun next => event = next) Q.limit top (Q.nextInBin top)).bind fun r =>
      -- the event is not found at the end of the list
      r.2.map fun next => (Q.setNextInBin r.1 (Q.nextInBin next), some top)

def remove (event : ℕ) : Option EventQueue :=
  Q.head.bind fun head =>
    if (Q.events head).eq (Q.events event) then
      (Q.removeItem event head).map fun r => { r.1 with head := r.2 }
    else
      (walk Q.nextBin (fun curr => !(Q.events curr).lt (Q.events event)) Q.limit head
        (Q.nextBin head)).bind fun r =>
          r.2.bind fun curr =>
            if (Q.events curr).eq (Q.events event) then
              (Q.removeItem event curr).map fun q => q.1.setNextBin r.1 q.2
            else none

def schedule (event when : ℕ) : Option EventQueue :=
  if Q.curTick ≤ when && !(Q.events event).scheduled && (Q.events event).initialized then
    ((Q.put event { Q.events event with when := when }).insert event).map fun Q =>
      Q.put event { Q.events event with scheduled := true }
  else none

def deschedule (event : ℕ) : Option EventQueue :=
  if (Q.events event).scheduled && (Q.events event).initialized then
    (Q.remove event).map fun Q =>
      Q.put event { Q.events event with squashed := false, scheduled := false }
  else none

def reschedule (event when : ℕ) (always : Bool) : Option EventQueue :=
  if Q.curTick ≤ when && (always || (Q.events event).scheduled) && (Q.events event).initialized then
    (if (Q.events event).scheduled then Q.remove event else some Q).bind fun Q =>
      ((Q.put event { Q.events event with when := when }).insert event).map fun Q =>
        Q.put event { Q.events event with squashed := false, scheduled := true }
  else none

/-- `serviceOne` up to the call of `process`, with the event that it serves. -/
def serviceOne : Option (EventQueue × ℕ) :=
  Q.head.map fun event =>
    let Q := Q.put event { Q.events event with scheduled := false }
    let Q :=
      match Q.nextInBin event with
      | some next => { Q.setNextBin next (Q.nextBin event) with head := some next }
      | none => { Q with head := Q.nextBin event }
    if (Q.events event).squashed then
      (Q.put event { Q.events event with squashed := false }, event)
    else ({ Q with curTick := (Q.events event).when }, event)

def construct (event : ℕ) (priority : ℤ) : Option EventQueue :=
  if (Q.events event).scheduled then none
  else some { Q.put event { priority := priority, initialized := true } with
    limit := max Q.limit (event + 1) }

def destroy (event : ℕ) : Option EventQueue :=
  if (Q.events event).scheduled then none
  else some (Q.put event { Q.events event with squashed := false, initialized := false })

def squash (event : ℕ) : EventQueue :=
  Q.put event { Q.events event with squashed := true }

/-! ## What the links denote -/

/-- From the link `p` on, the queue holds the given bins. -/
structure Denotes (Q : EventQueue) (p : Option ℕ) (bins : List (Bin ℕ)) : Prop where
  tops : Linked Q.nextBin p (bins.map Bin.top)
  inBins : ∀ b ∈ bins, Linked Q.nextInBin (Q.nextInBin b.top) b.rest

def key (e : ℕ) : ℕ ×ₗ ℤ := (Q.events e).key

def data (e : ℕ) : Event :=
  { Q.events e with nextBin := none, nextInBin := none }

structure SameData (Q Q' : EventQueue) : Prop where
  data : ∀ e, Q'.data e = Q.data e
  limit : Q'.limit = Q.limit
  curTick : Q'.curTick = Q.curTick

variable {Q} {Q' : EventQueue} {e x n : ℕ} {p q : Option ℕ} {event : Event} {front : List ℕ}
  {last : ℕ} {b : Bin ℕ} {bs bins pre tail post : List (Bin ℕ)}

theorem put_of_ne (h : x ≠ e) : (Q.put e event).events x = Q.events x :=
  update_of_ne h ..

theorem put_self (Q : EventQueue) (e : ℕ) (event : Event) : (Q.put e event).events e = event :=
  update_self ..

/-- A write that keeps a field keeps it for all events. -/
theorem put_field {β : Type} (f : Event → β) (hf : f event = f (Q.events e)) (x : ℕ) :
    f ((Q.put e event).events x) = f (Q.events x) := by
  rw [put, apply_update fun _ => f, hf, update_eq_self]

theorem SameData.refl (Q : EventQueue) : SameData Q Q := ⟨fun _ => rfl, rfl, rfl⟩

theorem SameData.trans {Q'' : EventQueue} (h : SameData Q Q') (h' : SameData Q' Q'') :
    SameData Q Q'' :=
  ⟨fun e => (h'.data e).trans (h.data e), h'.limit.trans h.limit, h'.curTick.trans h.curTick⟩

theorem SameData.setHead (h : SameData Q Q') (p : Option ℕ) : SameData Q { Q' with head := p } :=
  { h with }

theorem key_of_data (h : Q'.data e = Q.data e) : Q'.key e = Q.key e := by
  have hwhen := congrArg Event.when h
  have hpriority := congrArg Event.priority h
  simp only [EventQueue.data] at hwhen hpriority
  simp [EventQueue.key, Event.key, hwhen, hpriority]

theorem SameData.key (h : SameData Q Q') : Q'.key = Q.key := funext fun e => key_of_data (h.data e)

theorem sameData_put (h : { event with nextBin := none, nextInBin := none } = Q.data e) :
    SameData Q (Q.put e event) :=
  ⟨put_field (fun event => { event with nextBin := none, nextInBin := none }) h, rfl, rfl⟩

theorem nextBin_setNextBin : (Q.setNextBin e p).nextBin e = p := by
  simp [nextBin, setNextBin, put_self]

theorem nextBin_setNextBin_of_ne (h : x ≠ e) : (Q.setNextBin e p).nextBin x = Q.nextBin x := by
  simp [nextBin, setNextBin, put_of_ne h]

theorem nextInBin_setNextBin : (Q.setNextBin e p).nextInBin x = Q.nextInBin x :=
  put_field Event.nextInBin (by rfl) x

theorem nextInBin_setNextInBin : (Q.setNextInBin e p).nextInBin e = p := by
  simp [nextInBin, setNextInBin, put_self]

theorem nextInBin_setNextInBin_of_ne (h : x ≠ e) :
    (Q.setNextInBin e p).nextInBin x = Q.nextInBin x := by
  simp [nextInBin, setNextInBin, put_of_ne h]

theorem nextBin_setNextInBin : (Q.setNextInBin e p).nextBin x = Q.nextBin x :=
  put_field Event.nextBin (by rfl) x

/-- Only the links of the events that are held matter. -/
theorem Denotes.congr (h : Q.Denotes p bins)
    (hbin : ∀ x ∈ bins.map Bin.top, Q'.nextBin x = Q.nextBin x)
    (hin : ∀ x ∈ Bin.items bins, Q'.nextInBin x = Q.nextInBin x) : Q'.Denotes p bins where
  tops := h.tops.congr hbin
  inBins := by
    intro b hb
    rw [hin b.top (mem_items.2 ⟨b, hb, mem_cons_self⟩)]
    exact (h.inBins b hb).congr fun x hx =>
      hin x (mem_items.2 ⟨b, hb, mem_cons_of_mem _ hx⟩)

theorem Denotes.congr_events (h : Q.Denotes p bins)
    (heq : ∀ x ∈ Bin.items bins, Q'.events x = Q.events x) : Q'.Denotes p bins := by
  refine h.congr ?_ ?_
  · intro x hx
    simp only [nextBin, heq x ((tops_sublist bins).subset hx)]
  · intro x hx
    simp only [nextInBin, heq x hx]

/-- The bins after the last one of the first part. -/
theorem Denotes.rest (h : Q.Denotes p (pre ++ post)) (hpre : pre.map Bin.top = front ++ [last]) :
    Q.Denotes (Q.nextBin last) post where
  tops := by
    have htops := h.tops
    rw [map_append, hpre, append_assoc] at htops
    exact htops.rest
  inBins := fun b hb => h.inBins b (mem_append_right _ hb)

/-- The bins after the last one of the first part are replaced. -/
theorem Denotes.splice (h : Q.Denotes p (pre ++ post)) (hpre : pre.map Bin.top = front ++ [last])
    (hnodup : (pre.map Bin.top).Nodup) (htail : Q'.Denotes q tail)
    (hbin : ∀ x ∈ pre.map Bin.top, Q'.nextBin x = Q.nextBin x)
    (hin : ∀ x ∈ Bin.items pre, Q'.nextInBin x = Q.nextInBin x)
    (hlast : last ∉ tail.map Bin.top) : (Q'.setNextBin last q).Denotes p (pre ++ tail) where
  tops := by
    have htops := h.tops
    rw [map_append, hpre, append_assoc] at htops
    rw [map_append, hpre, append_assoc]
    refine htops.relink ?_ ?_
    · intro x hx
      have hne : x ≠ last := by
        rintro rfl
        rw [hpre] at hnodup
        exact (nodup_append.1 hnodup).2.2 x hx x mem_cons_self rfl
      rw [nextBin_setNextBin_of_ne hne]
      exact hbin x (hpre ▸ mem_append_left _ hx)
    · rw [nextBin_setNextBin]
      refine htail.tops.congr ?_
      intro x hx
      exact nextBin_setNextBin_of_ne fun hxl => hlast (hxl ▸ hx)
  inBins := by
    intro b hb
    rw [nextInBin_setNextBin]
    rcases mem_append.1 hb with hfront | hback
    · rw [hin b.top (mem_items.2 ⟨b, hfront, mem_cons_self⟩)]
      refine (h.inBins b (mem_append_left _ hfront)).congr ?_
      intro x hx
      rw [nextInBin_setNextBin]
      exact hin x (mem_items.2 ⟨b, hfront, mem_cons_of_mem _ hx⟩)
    · refine (htail.inBins b hback).congr ?_
      intro x _
      exact nextInBin_setNextBin

/-! ## Insertion -/

/-- Only the links of the event are written. -/
theorem insertBefore_eq (Q : EventQueue) (e : ℕ) (p : Option ℕ) : ∃ q r,
    Q.insertBefore e p = Q.put e { Q.events e with nextBin := q, nextInBin := r } := by
  unfold insertBefore
  split
  · exact ⟨_, _, rfl⟩
  · split
    · exact ⟨_, _, rfl⟩
    · exact ⟨_, _, rfl⟩

theorem sameData_insertBefore : SameData Q (Q.insertBefore e p) := by
  rcases insertBefore_eq Q e p with ⟨q, r, heq⟩
  exact heq ▸ sameData_put rfl

theorem insertBefore_of_ne (h : x ≠ e) : (Q.insertBefore e p).events x = Q.events x := by
  rcases insertBefore_eq Q e p with ⟨q, r, heq⟩
  exact heq ▸ put_of_ne h

theorem insertBefore_head : (Q.insertBefore e p).head = Q.head := by
  rcases insertBefore_eq Q e p with ⟨q, r, heq⟩
  rw [heq]
  rfl

/-- The event becomes a new bin before the others, or the top of the first one. -/
theorem denotes_insertBefore (h : Q.Denotes p bins) (he : e ∉ Bin.items bins) :
    (Q.insertBefore e p).Denotes (some e) (Bin.push Q.key e bins) := by
  have hold : (Q.insertBefore e p).Denotes p bins :=
    h.congr_events fun x hx => insertBefore_of_ne fun hxe => he (hxe ▸ hx)
  cases bins with
  | nil =>
    obtain rfl : p = none := h.tops
    refine ⟨⟨rfl, ?_⟩, ?_⟩
    · simp [insertBefore, nextBin, put_self, Linked]
    · simp [push, insertBefore, nextInBin, put_self, Linked]
  | cons b bs =>
    obtain rfl : p = some b.top := h.tops.1
    by_cases hlt : Q.key e < Q.key b.top
    · -- a new bin
      have hins : Q.insertBefore e (some b.top) =
          Q.put e { Q.events e with nextBin := some b.top, nextInBin := none } := by
        simp only [insertBefore]
        rw [if_pos (Event.lt_iff.2 hlt)]
      rw [push, if_pos hlt]
      refine ⟨⟨rfl, ?_⟩, ?_⟩
      · have hlink : (Q.insertBefore e (some b.top)).nextBin e = some b.top := by
          rw [hins, nextBin, put_self]
        rw [hlink]
        exact hold.tops
      · intro c hc
        rcases mem_cons.1 hc with rfl | hc
        · rw [hins, nextInBin, put_self]
          rfl
        · exact hold.inBins c hc
    · -- the top of the first bin
      have hins : Q.insertBefore e (some b.top) =
          Q.put e { Q.events e with nextBin := Q.nextBin b.top, nextInBin := some b.top } := by
        simp only [insertBefore]
        rw [if_neg fun hl => hlt (Event.lt_iff.1 hl)]
        rfl
      have hne : b.top ≠ e := by
        rintro rfl
        exact he (mem_items.2 ⟨b, mem_cons_self, mem_cons_self⟩)
      rw [push, if_neg hlt]
      refine ⟨⟨rfl, ?_⟩, ?_⟩
      · have hlink : (Q.insertBefore e (some b.top)).nextBin e =
            (Q.insertBefore e (some b.top)).nextBin b.top := by
          simp [hins, nextBin, put_self, put_of_ne hne]
        rw [hlink]
        exact hold.tops.2
      · intro c hc
        rcases mem_cons.1 hc with rfl | hc
        · have hlink : (Q.insertBefore e (some b.top)).nextInBin e = some b.top := by
            rw [hins, nextInBin, put_self]
          rw [hlink]
          exact ⟨rfl, hold.inBins b mem_cons_self⟩
        · exact hold.inBins c (mem_cons_of_mem b hc)

theorem lt_eq_decide (Q : EventQueue) (x y : ℕ) :
    (Q.events x).lt (Q.events y) = decide (Q.key x < Q.key y) :=
  Bool.eq_iff_iff.2 (Event.lt_iff.trans decide_eq_true_iff.symm)

/-- Where the search for the bin of an event stops. -/
theorem walk_bins (h : Q.Denotes p (b :: bs))
    (hlimit : bs.length < Q.limit) (hlt : Q.key b.top < Q.key e) :
    ∃ front last,
      (Bin.before Q.key (Q.key e) (b :: bs)).map Bin.top = front ++ [last] ∧
      walk Q.nextBin (fun curr => !(Q.events curr).lt (Q.events e)) Q.limit b.top
        (Q.nextBin b.top) =
          some (last, ((Bin.after Q.key (Q.key e) (b :: bs)).map Bin.top).head?) := by
  have hlength : (bs.map top).length < Q.limit := by simpa using hlimit
  rcases walk_linked (fun curr => !(Q.events curr).lt (Q.events e)) b.top h.tops.2 hlength with
    ⟨front, last, hfront, hwalk⟩
  refine ⟨front, last, ?_, ?_⟩
  · rw [← hfront, before, takeWhile_cons_of_pos (by simpa using hlt), map_cons, takeWhile_map]
    simp only [lt_eq_decide, Bool.not_not]
    rfl
  · rw [hwalk, Bin.after, dropWhile_cons_of_pos (by simpa using hlt), dropWhile_map]
    simp only [lt_eq_decide, Bool.not_not]
    rfl

theorem bins_length_lt (hlimit : (Bin.items (b :: bs)).length ≤ Q.limit) : bs.length < Q.limit := by
  have hle := (tops_sublist (b :: bs)).length_le
  rw [length_map, length_cons] at hle
  exact lt_of_lt_of_le hle hlimit

/-- The last bin before the place of an event is none of those behind it. -/
theorem last_notMem
    (hpre : pre.map Bin.top = front ++ [last]) (hnodup : (Bin.items (pre ++ tail)).Nodup) :
    last ∉ tail.map Bin.top := by
  intro hmem
  rw [items_append] at hnodup
  have hlast : last ∈ pre.map top := hpre ▸ mem_append_right _ mem_cons_self
  exact (nodup_append.1 hnodup).2.2 last ((tops_sublist pre).subset hlast) last
    ((tops_sublist tail).subset hmem) rfl

theorem denotes_insert (h : Q.Denotes Q.head bins) (hB : Bin.Binned Q.key bins)
    (he : e ∉ Bin.items bins) (hlimit : (Bin.items bins).length ≤ Q.limit) :
    ∃ Q', Q.insert e = some Q' ∧ Q'.Denotes Q'.head (Bin.insert Q.key e bins) ∧ SameData Q Q' := by
  cases bins with
  | nil =>
    have hhead : Q.head = none := h.tops
    have hins := denotes_insertBefore (hhead ▸ h) he
    refine ⟨{ Q.insertBefore e none with head := some e }, ?_, { hins with },
      sameData_insertBefore.setHead _⟩
    simp [EventQueue.insert, hhead]
  | cons b bs =>
    have hhead : Q.head = some b.top := h.tops.1
    rw [hhead] at h
    by_cases hle : Q.key e ≤ Q.key b.top
    · -- the event comes first
      have hnot : ¬Q.key b.top < Q.key e := not_lt_of_ge hle
      have hinsert : Bin.insert Q.key e (b :: bs) = Bin.push Q.key e (b :: bs) := by
        simp [Bin.insert, Bin.before, Bin.after, hnot]
      have hins := denotes_insertBefore h he
      rw [hinsert]
      refine ⟨{ Q.insertBefore e (some b.top) with head := some e }, ?_,
        { hins with }, sameData_insertBefore.setHead _⟩
      simp only [EventQueue.insert, hhead]
      rw [if_pos (Event.le_iff.2 hle)]
    · have hlt : Q.key b.top < Q.key e := lt_of_not_ge hle
      rcases walk_bins h (bins_length_lt hlimit) hlt with ⟨front, last, hpre, hwalk⟩
      have hsplit : before Q.key (Q.key e) (b :: bs) ++ after Q.key (Q.key e) (b :: bs) =
          b :: bs := before_append_after
      have hnodup := hB.nodup
      have hnot := he
      rw [← hsplit] at h hnodup hnot
      rw [items_append, mem_append, not_or] at hnot
      have hrest := h.rest hpre
      have hins := denotes_insertBefore hrest hnot.2
      have hmemBefore : ∀ x ∈ items (before Q.key (Q.key e) (b :: bs)), x ≠ e :=
        fun x hx hxe => hnot.1 (hxe ▸ hx)
      refine ⟨(Q.insertBefore e (Q.nextBin last)).setNextBin last (some e), ?_, ?_, ?_⟩
      · simp only [EventQueue.insert, hhead]
        rw [if_neg fun hl => hle (Event.le_iff.1 hl), hwalk, ← hrest.tops.head?_eq]
        rfl
      · have hkept : ((Q.insertBefore e (Q.nextBin last)).setNextBin last (some e)).head =
            some b.top := insertBefore_head.trans hhead
        rw [hkept, Bin.insert]
        have htops := (tops_sublist (before Q.key (Q.key e) (b :: bs))).nodup
          (nodup_append.1 (items_append _ _ ▸ hnodup)).1
        refine h.splice hpre htops hins ?_ ?_ ?_
        · intro x hx
          rw [nextBin, insertBefore_of_ne (hmemBefore x ((tops_sublist _).subset hx))]
          rfl
        · intro x hx
          rw [nextInBin, insertBefore_of_ne (hmemBefore x hx)]
          rfl
        · exact last_notMem hpre (hB.insert he).nodup
      · exact sameData_insertBefore.trans (sameData_put rfl)

/-! ## Removal -/

/-- What `removeItem` does to the first of the given bins. -/
structure Removed (Q : EventQueue) (e : ℕ) (b : Bin ℕ) (bs : List (Bin ℕ)) (Q' : EventQueue)
    (q : Option ℕ) : Prop where
  denotes : Q'.Denotes q (Bin.pull e (b :: bs))
  data : SameData Q Q'
  head : Q'.head = Q.head
  frame : ∀ x ∉ b.toList, Q'.events x = Q.events x

theorem removeItem_top (h : Q.Denotes p (b :: bs)) (hnodup : (Bin.items (b :: bs)).Nodup) :
    ∃ Q' q, Q.removeItem b.top b.top = some (Q', q) ∧ Removed Q b.top b bs Q' q := by
  have hstack := h.inBins b mem_cons_self
  have herase : b.toList.erase b.top = b.rest := by simp [Bin.toList]
  unfold removeItem
  rw [if_pos rfl]
  cases hrest : b.rest with
  | nil =>
    have hnext : Q.nextInBin b.top = none := by
      rw [hrest] at hstack
      exact hstack
    refine ⟨Q, Q.nextBin b.top, by rw [hnext], ?_, SameData.refl Q, rfl, fun _ _ => rfl⟩
    have hpull : pull b.top (b :: bs) = bs := by simp [pull, erase, herase, hrest]
    rw [hpull]
    exact ⟨h.tops.2, fun c hc => h.inBins c (mem_cons_of_mem b hc)⟩
  | cons n r =>
    have hnext : Q.nextInBin b.top = some n ∧ Linked Q.nextInBin (Q.nextInBin n) r := by
      rw [hrest] at hstack
      exact hstack
    have hpull : pull b.top (b :: bs) = ⟨n, r⟩ :: bs := by
      simp [pull, erase, herase, hrest]
    have hn : n ∈ b.toList := by simp [Bin.toList, hrest]
    have hfresh : n ∉ bs.map top := by
      intro hmem
      exact (nodup_append.1 hnodup).2.2 n hn n ((tops_sublist bs).subset hmem) rfl
    refine ⟨Q.setNextBin n (Q.nextBin b.top), some n, by rw [hnext.1], ?_, sameData_put rfl,
      rfl, ?_⟩
    · rw [hpull]
      refine ⟨⟨rfl, ?_⟩, ?_⟩
      · -- the new top takes over the link to the next bin
        rw [nextBin_setNextBin]
        refine h.tops.2.congr ?_
        intro x hx
        exact nextBin_setNextBin_of_ne fun hxn => hfresh (hxn ▸ hx)
      · intro c hc
        rw [nextInBin_setNextBin]
        rcases mem_cons.1 hc with rfl | hc
        · exact hnext.2.congr fun x _ => nextInBin_setNextBin
        · exact (h.inBins c (mem_cons_of_mem b hc)).congr fun x _ => nextInBin_setNextBin
    · intro x hx
      exact put_of_ne fun hxn => hx (hxn ▸ hn)

theorem removeItem_rest (h : Q.Denotes p (b :: bs))
    (hnodup : (Bin.items (b :: bs)).Nodup) (hne : e ≠ b.top) (he : e ∈ b.rest)
    (hlimit : b.rest.length < Q.limit) :
    ∃ Q' q, Q.removeItem e b.top = some (Q', q) ∧ Removed Q e b bs Q' q := by
  have hstack := h.inBins b mem_cons_self
  rcases walk_linked (fun next => decide (e = next)) b.top hstack hlimit with
    ⟨front, last, hfront, hwalk⟩
  rcases dropWhile_ne (fun next => decide (e = next)) (fun x => decide_eq_true_iff) he with
    ⟨suf, hdrop⟩
  generalize hpre : b.rest.takeWhile (fun a => !decide (e = a)) = pre at hfront
  have hsplit : b.rest = pre ++ e :: suf := by
    rw [← hpre, ← hdrop, takeWhile_append_dropWhile]
  have hlist : b.toList = front ++ last :: e :: suf := by
    calc b.toList = (b.top :: pre) ++ e :: suf := by rw [Bin.toList, hsplit]; rfl
      _ = front ++ last :: e :: suf := by rw [hfront, append_assoc]; rfl
  have hbin : b.toList.Nodup := by
    exact (nodup_append.1 hnodup).1
  have hlast : last ∈ b.toList := hlist ▸ mem_append_right _ mem_cons_self
  have hfresh : last ∉ front ∧ last ∉ suf := by
    rw [hlist, nodup_append, nodup_cons] at hbin
    refine ⟨fun hmem => hbin.2.2 last hmem last mem_cons_self rfl, fun hmem => ?_⟩
    exact hbin.2.1.1 (mem_cons_of_mem e hmem)
  have herase : b.toList.erase e = b.top :: (pre ++ suf) := by
    have hnot : e ∉ pre := by
      rw [← hpre]
      intro hmem
      simpa using mem_takeWhile_imp hmem
    rw [Bin.toList, hsplit, erase_cons_tail (by simpa using Ne.symm hne),
      erase_append_right _ hnot, erase_cons_head]
  have hpull : pull e (b :: bs) = ⟨b.top, pre ++ suf⟩ :: bs := by
    simp [pull, erase, herase]
  refine ⟨Q.setNextInBin last (Q.nextInBin e), some b.top, ?_, ?_, sameData_put rfl, rfl, ?_⟩
  · rw [removeItem, if_neg hne, hwalk, hdrop]
    rfl
  · rw [hpull]
    refine ⟨⟨rfl, ?_⟩, ?_⟩
    · rw [nextBin_setNextInBin]
      exact h.tops.2.congr fun x _ => nextBin_setNextInBin
    · intro c hc
      rcases mem_cons.1 hc with rfl | hc
      · -- the event before it is linked to the event behind it
        have hchain : Linked Q.nextInBin (some b.top) (front ++ last :: e :: suf) := by
          rw [← hlist]
          exact ⟨rfl, hstack⟩
        have hsuf : Linked Q.nextInBin (Q.nextInBin e) suf := by
          rw [show front ++ last :: e :: suf = (front ++ [last]) ++ e :: suf by simp] at hchain
          exact hchain.rest
        have hnew : Linked (Q.setNextInBin last (Q.nextInBin e)).nextInBin (some b.top)
            (front ++ last :: suf) := by
          refine hchain.relink ?_ ?_
          · intro x hx
            exact nextInBin_setNextInBin_of_ne fun hxl => hfresh.1 (hxl ▸ hx)
          · rw [nextInBin_setNextInBin]
            refine hsuf.congr ?_
            intro x hx
            exact nextInBin_setNextInBin_of_ne fun hxl => hfresh.2 (hxl ▸ hx)
        have hcells : front ++ last :: suf = b.top :: (pre ++ suf) := by
          rw [← cons_append, hfront, append_assoc]
          rfl
        rw [hcells] at hnew
        exact hnew.2
      · -- the other bins do not hold the event before it
        have hother : ∀ x ∈ c.toList, x ≠ last := by
          rintro x hx rfl
          exact (nodup_append.1 hnodup).2.2 x hlast x (mem_items.2 ⟨c, hc, hx⟩) rfl
        rw [nextInBin_setNextInBin_of_ne (hother c.top mem_cons_self)]
        refine (h.inBins c (mem_cons_of_mem b hc)).congr ?_
        intro x hx
        exact nextInBin_setNextInBin_of_ne (hother x (mem_cons_of_mem _ hx))
  · intro x hx
    exact put_of_ne fun hxl => hx (hxl ▸ hlast)

theorem denotes_removeItem (h : Q.Denotes p (b :: bs))
    (hnodup : (Bin.items (b :: bs)).Nodup) (he : e ∈ b.toList) (hlimit : b.rest.length < Q.limit) :
    ∃ Q' q, Q.removeItem e b.top = some (Q', q) ∧ Removed Q e b bs Q' q := by
  by_cases htop : e = b.top
  · subst htop
    exact removeItem_top h hnodup
  · rcases mem_cons.1 he with hfirst | hrest
    · exact absurd hfirst htop
    · exact removeItem_rest h hnodup htop hrest hlimit

theorem denotes_remove (h : Q.Denotes Q.head bins) (hB : Bin.Binned Q.key bins)
    (he : e ∈ Bin.items bins) (hlimit : (Bin.items bins).length ≤ Q.limit) :
    ∃ Q', Q.remove e = some Q' ∧ Q'.Denotes Q'.head (Bin.remove Q.key e bins) ∧ SameData Q Q' := by
  rcases hB.locate he with ⟨b, bs, hafter, heb, hkey⟩
  have hsplit : before Q.key (Q.key e) bins ++ b :: bs = bins := by
    rw [← hafter]
    exact before_append_after
  have hremove : Bin.remove Q.key e bins =
      before Q.key (Q.key e) bins ++ pull e (b :: bs) := by
    rw [Bin.remove, hafter]
  have hnodup : (items (before Q.key (Q.key e) bins ++ b :: bs)).Nodup := by
    rw [hsplit]
    exact hB.nodup
  rw [items_append, nodup_append] at hnodup
  have hrest : b.rest.length < Q.limit := by
    have hsub : b.toList.Sublist (items bins) := by
      rw [← hsplit, items_append, items_cons]
      exact (sublist_append_left ..).trans (sublist_append_right ..)
    exact lt_of_lt_of_le hsub.length_le hlimit
  have heq : (Q.events b.top).eq (Q.events e) = true := Event.eq_iff.2 hkey
  rw [hremove]
  cases hbefore : before Q.key (Q.key e) bins with
  | nil =>
    -- the event is in the first bin
    rw [hbefore, nil_append] at hsplit
    have hhead : Q.head = some b.top := by
      rw [← hsplit] at h
      exact h.tops.1
    rw [← hsplit] at h
    rcases denotes_removeItem h hnodup.2.1 heb hrest with ⟨Q', q, hitem, hremoved⟩
    refine ⟨{ Q' with head := q }, ?_, ?_, hremoved.data.setHead q⟩
    · simp only [EventQueue.remove, hhead, bind_some]
      rw [if_pos heq, hitem]
      rfl
    · exact { hremoved.denotes with }
  | cons c cs =>
    rw [hbefore] at hsplit hnodup
    have hc : Q.key c.top < Q.key e := lt_of_mem_before (hbefore ▸ mem_cons_self)
    have hne : ¬(Q.events c.top).eq (Q.events e) = true := fun hceq =>
      (ne_of_lt hc) (Event.eq_iff.1 hceq)
    have hbins : c :: (cs ++ b :: bs) = bins := hsplit
    have hhead : Q.head = some c.top := by
      rw [← hbins] at h
      exact h.tops.1
    rw [← hbins] at hbefore hafter hlimit
    have hwhole := h
    rw [← hbins] at hwhole
    rcases walk_bins hwhole (bins_length_lt hlimit) hc with ⟨front, last, hpre, hwalk⟩
    rw [hbefore] at hpre
    rw [hafter, map_cons, head?_cons] at hwalk
    rw [← hsplit] at h
    have hback := h.rest hpre
    rcases denotes_removeItem hback hnodup.2.1 heb hrest with ⟨Q', q, hitem, hremoved⟩
    have hdisjoint : ∀ x ∈ items (c :: cs), Q'.events x = Q.events x := by
      intro x hx
      refine hremoved.frame x ?_
      intro hxb
      refine hnodup.2.2 x hx x ?_ rfl
      exact mem_append_left _ hxb
    refine ⟨Q'.setNextBin last q, ?_, ?_, hremoved.data.trans (sameData_put rfl)⟩
    · simp only [EventQueue.remove, hhead, bind_some]
      rw [if_neg hne, hwalk]
      simp only [bind_some]
      rw [if_pos heq, hitem]
      rfl
    · have hkept : (Q'.setNextBin last q).head = Q.head := hremoved.head
      rw [hkept]
      refine h.splice hpre ((tops_sublist _).nodup hnodup.1) hremoved.denotes ?_ ?_ ?_
      · intro x hx
        rw [nextBin, hdisjoint x ((tops_sublist _).subset hx)]
        rfl
      · intro x hx
        rw [nextInBin, hdisjoint x hx]
        rfl
      · refine last_notMem hpre ?_
        have hbinned := (hB.remove he).nodup
        rw [hremove] at hbinned
        rw [← hbins, hbefore] at hbinned
        exact hbinned

/-! ## Sessions -/

/-- The queue, and when each event was inserted last. -/
structure Session where
  queue : EventQueue := {}
  clock : ℕ := 0
  insertedAt : ℕ → ℕ := fun _ => 0

inductive Call
  | construct (event : ℕ) (priority : ℤ)
  | destroy (event : ℕ)
  | squash (event : ℕ)
  | schedule (event when : ℕ)
  | deschedule (event : ℕ)
  | reschedule (event when : ℕ) (always : Bool)
  | serviceOne
  deriving DecidableEq, Repr

namespace Session

variable (S : Session)

/-- The event was inserted, which gave the queue `Q`. -/
def inserted (event : ℕ) (Q : EventQueue) : Session where
  queue := Q
  clock := S.clock + 1
  insertedAt := Function.update S.insertedAt event S.clock

def step : Call → Option Session
  | .construct event priority => (S.queue.construct event priority).map fun Q =>
    { S with queue := Q }
  | .destroy event => (S.queue.destroy event).map fun Q => { S with queue := Q }
  | .squash event => some { S with queue := S.queue.squash event }
  | .schedule event when => (S.queue.schedule event when).map (S.inserted event)
  | .deschedule event => (S.queue.deschedule event).map fun Q => { S with queue := Q }
  | .reschedule event when always =>
    (S.queue.reschedule event when always).map (S.inserted event)
  | .serviceOne => S.queue.serviceOne.map fun r => { S with queue := r.1 }

def Asserted : Call → Prop
  | .construct event _ => (S.queue.events event).scheduled = false
  | .destroy event => (S.queue.events event).scheduled = false
  | .squash _ => True
  | .schedule event when => S.queue.curTick ≤ when ∧ (S.queue.events event).scheduled = false ∧
      (S.queue.events event).initialized = true
  | .deschedule event => (S.queue.events event).scheduled = true ∧
      (S.queue.events event).initialized = true
  | .reschedule event when always => S.queue.curTick ≤ when ∧
      (always = true ∨ (S.queue.events event).scheduled = true) ∧
      (S.queue.events event).initialized = true
  | .serviceOne => S.queue.head ≠ none

/-- The event that a call puts on the queue or takes off it. -/
def subject : Call → Option ℕ
  | .schedule event _ => some event
  | .deschedule event => some event
  | .reschedule event _ _ => some event
  | .serviceOne => S.queue.head
  | _ => none

end Session

def Call.schedules : Call → Bool
  | .schedule .. => true
  | .reschedule .. => true
  | _ => false

namespace Session

/-- The queue holds the given bins. -/
structure Holds (S : Session) (bins : List (Bin ℕ)) : Prop where
  denotes : S.queue.Denotes S.queue.head bins
  binned : Bin.Binned S.queue.key bins
  recent : Bin.Recent S.insertedAt bins
  mem_iff : ∀ x, x ∈ Bin.items bins ↔ (S.queue.events x).scheduled = true
  future : ∀ x ∈ Bin.items bins, S.queue.curTick ≤ (S.queue.events x).when
  live : ∀ x ∈ Bin.items bins, (S.queue.events x).initialized = true
  bounded : ∀ x, (S.queue.events x).initialized = true → x < S.queue.limit
  earlier : ∀ x ∈ Bin.items bins, S.insertedAt x < S.clock

/-- While one event is moved, the queue `Q` holds all other scheduled events. -/
structure HoldsOthers (S : Session) (Q : EventQueue) (e : ℕ) (bins : List (Bin ℕ)) : Prop where
  denotes : Q.Denotes Q.head bins
  binned : Bin.Binned Q.key bins
  recent : Bin.Recent S.insertedAt bins
  mem_iff : ∀ x, x ∈ Bin.items bins ↔ x ≠ e ∧ (Q.events x).scheduled = true
  future : ∀ x ∈ Bin.items bins, Q.curTick ≤ (Q.events x).when
  live : ∀ x ∈ Bin.items bins, (Q.events x).initialized = true
  bounded : ∀ x, (Q.events x).initialized = true → x < Q.limit
  earlier : ∀ x ∈ Bin.items bins, S.insertedAt x < S.clock

end Session

theorem scheduled_of_data (h : Q'.data e = Q.data e) :
    (Q'.events e).scheduled = (Q.events e).scheduled := by
  simpa [EventQueue.data] using congrArg Event.scheduled h

theorem initialized_of_data (h : Q'.data e = Q.data e) :
    (Q'.events e).initialized = (Q.events e).initialized := by
  simpa [EventQueue.data] using congrArg Event.initialized h

theorem when_of_data (h : Q'.data e = Q.data e) : (Q'.events e).when = (Q.events e).when := by
  simpa [EventQueue.data] using congrArg Event.when h

theorem key_put (h : event.key = (Q.events e).key) : (Q.put e event).key = Q.key :=
  funext fun x => put_field Event.key h x

theorem Denotes.put (h : Q.Denotes p bins)
    (hbin : event.nextBin = (Q.events e).nextBin) (hin : event.nextInBin = (Q.events e).nextInBin) :
    (Q.put e event).Denotes p bins :=
  h.congr (fun x _ => put_field Event.nextBin hbin x) (fun x _ => put_field Event.nextInBin hin x)

theorem length_le_of_bounded {xs : List ℕ} (hnodup : xs.Nodup) (hlt : ∀ x ∈ xs, x < n) :
    xs.length ≤ n := by
  have hsub : xs ⊆ List.range n := fun x hx => mem_range.2 (hlt x hx)
  simpa using (subperm_of_subset hnodup hsub).length_le

namespace Session

variable {S S' : Session} {when : ℕ}

theorem Holds.others (h : S.Holds bins) (he : (S.queue.events e).scheduled = false) :
    S.HoldsOthers S.queue e bins where
  __ := h
  mem_iff := by
    intro x
    rw [h.mem_iff]
    refine ⟨fun hx => ⟨?_, hx⟩, fun hx => hx.2⟩
    rintro rfl
    rw [he] at hx
    cases hx

theorem Holds.length_le (h : S.Holds bins) : (Bin.items bins).length ≤ S.queue.limit :=
  length_le_of_bounded h.binned.nodup fun x hx => h.bounded x (h.live x hx)

theorem HoldsOthers.length_le (h : S.HoldsOthers Q e bins) : (Bin.items bins).length ≤ Q.limit :=
  length_le_of_bounded h.binned.nodup fun x hx => h.bounded x (h.live x hx)

theorem HoldsOthers.not_mem (h : S.HoldsOthers Q e bins) : e ∉ Bin.items bins :=
  fun he => ((h.mem_iff e).1 he).1 rfl

/-- The queue without `e`, if the other events keep their data. -/
theorem Holds.without (h : S.Holds bins) (he : e ∈ Bin.items bins)
    (hdenotes : Q.Denotes Q.head (Bin.remove S.queue.key e bins))
    (hdata : ∀ x, x ≠ e → Q.data x = S.queue.data x) (htick : Q.curTick = S.queue.curTick)
    (hlimit : Q.limit = S.queue.limit) : S.HoldsOthers Q e (Bin.remove S.queue.key e bins) := by
  have hitems : ∀ x, x ∈ Bin.items (Bin.remove S.queue.key e bins) ↔
      x ≠ e ∧ x ∈ Bin.items bins := by
    intro x
    rw [h.binned.items_remove he]
    exact h.binned.nodup.mem_erase_iff
  refine ⟨hdenotes, ?_, h.recent.remove, ?_, ?_, ?_, ?_, ?_⟩
  · exact (h.binned.remove he).congr fun x hx => key_of_data (hdata x ((hitems x).1 hx).1)
  · intro x
    rw [hitems, h.mem_iff]
    exact and_congr_right fun hx => by rw [scheduled_of_data (hdata x hx)]
  · intro x hx
    rw [htick, when_of_data (hdata x ((hitems x).1 hx).1)]
    exact h.future x ((hitems x).1 hx).2
  · intro x hx
    rw [initialized_of_data (hdata x ((hitems x).1 hx).1)]
    exact h.live x ((hitems x).1 hx).2
  · intro x hx
    rw [hlimit]
    by_cases hxe : x = e
    · exact hxe ▸ h.bounded e (h.live e he)
    · exact h.bounded x ((initialized_of_data (hdata x hxe)).symm.trans hx)
  · exact fun x hx => h.earlier x ((hitems x).1 hx).2

/-- A scheduled event is taken off the queue. -/
theorem Holds.remove (h : S.Holds bins) (he : (S.queue.events e).scheduled = true) :
    ∃ Q', S.queue.remove e = some Q' ∧ SameData S.queue Q' ∧
      S.HoldsOthers Q' e (Bin.remove S.queue.key e bins) := by
  have hmem : e ∈ items bins := (h.mem_iff e).2 he
  rcases denotes_remove h.denotes h.binned hmem h.length_le with ⟨Q', hremove, hdenotes, hdata⟩
  exact ⟨Q', hremove, hdata,
    h.without hmem hdenotes (fun x _ => hdata.data x) hdata.curTick hdata.limit⟩

/-- The other events do not see what is written to the event that is moved. -/
theorem HoldsOthers.put (h : S.HoldsOthers Q e bins)
    (hlive : event.initialized = true → e < Q.limit) : S.HoldsOthers (Q.put e event) e bins := by
  have hsame : ∀ x ∈ items bins, (Q.put e event).events x = Q.events x :=
    fun x hx => put_of_ne fun hxe => h.not_mem (hxe ▸ hx)
  refine ⟨h.denotes.congr_events hsame, ?_, h.recent, ?_, ?_, ?_, ?_, h.earlier⟩
  · exact h.binned.congr fun x hx => congrArg Event.key (hsame x hx)
  · intro x
    rw [h.mem_iff]
    exact and_congr_right fun hx => by rw [put_of_ne hx]
  · intro x hx
    rw [hsame x hx]
    exact h.future x hx
  · intro x hx
    rw [hsame x hx]
    exact h.live x hx
  · intro x hx
    by_cases hxe : x = e
    · subst hxe
      rw [put_self] at hx
      exact hlive hx
    · rw [put_of_ne hxe] at hx
      exact h.bounded x hx

/-- The event is put on the queue at a new time. -/
theorem HoldsOthers.insert (h : S.HoldsOthers Q e bins)
    (hlive : (Q.events e).initialized = true) (hwhen : Q.curTick ≤ when) :
    ∃ Q' bins', (Q.put e { Q.events e with when := when }).insert e = some Q' ∧
      SameData (Q.put e { Q.events e with when := when }) Q' ∧
      ∀ squashed, (S.inserted e (Q'.put e
        { Q'.events e with squashed := squashed, scheduled := true })).Holds bins' := by
  have h₁ : S.HoldsOthers (Q.put e { Q.events e with when := when }) e bins :=
    h.put fun _ => h.bounded e hlive
  generalize hQ : Q.put e { Q.events e with when := when } = Q₁ at h₁ ⊢
  have hne : ∀ x ∈ items bins, x ≠ e := fun x hx hxe => h.not_mem (hxe ▸ hx)
  rcases denotes_insert h₁.denotes h₁.binned h₁.not_mem h₁.length_le with ⟨Q', hins, hafter, hdata⟩
  refine ⟨Q', Bin.insert Q₁.key e bins, hins, hdata, ?_⟩
  intro squashed
  have hitems : ∀ x, x ∈ Bin.items (Bin.insert Q₁.key e bins) ↔ x = e ∨ x ∈ Bin.items bins := by
    intro x
    rw [items_insert_perm.mem_iff, mem_cons]
  generalize hF : Q'.put e { Q'.events e with squashed := squashed, scheduled := true } = F
  have hkey : F.key = Q₁.key := by
    rw [← hdata.key, ← hF]
    exact key_put rfl
  have hwhen' : ∀ x, (F.events x).when = (Q₁.events x).when := by
    intro x
    rw [← when_of_data (hdata.data x), ← hF]
    refine put_field Event.when ?_ x
    rfl
  have hlive' : ∀ x, (F.events x).initialized = (Q₁.events x).initialized := by
    intro x
    rw [← initialized_of_data (hdata.data x), ← hF]
    refine put_field Event.initialized ?_ x
    rfl
  have hscheduled : ∀ x, (F.events x).scheduled = true ↔
      x = e ∨ (x ≠ e ∧ (Q₁.events x).scheduled = true) := by
    intro x
    by_cases hx : x = e
    · subst hx
      rw [← hF, put_self]
      simp
    · rw [← hF, put_of_ne hx, scheduled_of_data (hdata.data x)]
      simp [hx]
  have htick : F.curTick = Q₁.curTick := by
    rw [← hF]
    exact hdata.curTick
  refine ⟨?_, ?_, ?_, ?_, ?_, ?_, ?_, ?_⟩
  · rw [← hF]
    exact hafter.put rfl rfl
  · show Bin.Binned F.key _
    rw [hkey]
    exact h₁.binned.insert h₁.not_mem
  · -- the insertion is later than all others
    refine (h.recent.congr ?_).insert ?_
    · intro x hx
      exact update_of_ne (hne x hx) ..
    · intro x hx
      simp only [inserted, update_self, update_of_ne (hne x hx)]
      exact h.earlier x hx
  · intro x
    show _ ↔ (F.events x).scheduled = true
    rw [hitems, hscheduled, h₁.mem_iff]
  · intro x hx
    show F.curTick ≤ (F.events x).when
    rw [htick, hwhen']
    rcases (hitems x).1 hx with rfl | hx
    · rw [← hQ, put_self]
      exact hwhen
    · exact h₁.future x hx
  · intro x hx
    show (F.events x).initialized = true
    rw [hlive']
    rcases (hitems x).1 hx with rfl | hx
    · rw [← hQ, put_self]
      exact hlive
    · exact h₁.live x hx
  · intro x hx
    have hbound : F.limit = Q₁.limit := by
      rw [← hF]
      exact hdata.limit
    show x < F.limit
    rw [hbound]
    exact h₁.bounded x ((hlive' x).symm.trans hx)
  · intro x hx
    simp only [inserted]
    rcases (hitems x).1 hx with rfl | hx
    · rw [update_self]
      exact lt_succ_self _
    · rw [update_of_ne (hne x hx)]
      exact lt_succ_of_lt (h.earlier x hx)

/-- The event that was moved stays off the queue. -/
theorem HoldsOthers.settle (h : S.HoldsOthers Q e bins)
    (hoff : event.scheduled = false) (hlive : event.initialized = true → e < Q.limit) :
    Holds { S with queue := Q.put e event } bins := by
  have hput := h.put hlive
  refine { hput with mem_iff := ?_ }
  intro x
  rw [hput.mem_iff]
  refine and_iff_right_of_imp fun hx hxe => ?_
  rw [hxe, put_self, hoff] at hx
  cases hx

theorem Holds.raise (h : S.Holds bins) (hn : S.queue.limit ≤ n) :
    Holds { S with queue := { S.queue with limit := n } } bins :=
  { h with
    denotes := { h.denotes with }, bounded := fun x hx => lt_of_lt_of_le (h.bounded x hx) hn }

theorem Holds.advance (h : S.Holds bins) {t : ℕ}
    (ht : ∀ x ∈ Bin.items bins, t ≤ (S.queue.events x).when) :
    Holds { S with queue := { S.queue with curTick := t } } bins :=
  { h with denotes := { h.denotes with }, future := ht }

/-- The queue does not depend on the flag that is written. -/
theorem Holds.squash (h : S.Holds bins) (e : ℕ) :
    Holds { S with queue := S.queue.squash e } bins := by
  refine ⟨h.denotes.put rfl rfl, ?_, h.recent, ?_, ?_, ?_, ?_, h.earlier⟩
  · rw [EventQueue.squash, key_put (by rfl)]
    exact h.binned
  · intro x
    rw [EventQueue.squash, put_field Event.scheduled (by rfl)]
    exact h.mem_iff x
  · intro x hx
    rw [EventQueue.squash, put_field Event.when (by rfl)]
    exact h.future x hx
  · intro x hx
    rw [EventQueue.squash, put_field Event.initialized (by rfl)]
    exact h.live x hx
  · intro x hx
    rw [EventQueue.squash, put_field Event.initialized (by rfl)] at hx
    exact h.bounded x hx

/-- `serviceOne` takes the head off the queue as `removeItem` does. -/
theorem serviceOne_eq (hhead : Q.head = some e)
    (hitem : (Q.put e { Q.events e with scheduled := false }).removeItem e e = some (Q', q)) :
    Q.serviceOne = some (if (Q'.events e).squashed then
      ({ Q' with head := q }.put e { Q'.events e with squashed := false }, e)
    else ({ Q' with head := q, curTick := (Q'.events e).when }, e)) := by
  generalize hQ : Q.put e { Q.events e with scheduled := false } = Q₁ at hitem
  simp only [serviceOne, hhead, map_some, hQ]
  unfold removeItem at hitem
  rw [if_pos rfl] at hitem
  split at hitem
  case h_1 hnext =>
    cases hitem
    simp only [hnext]
  case h_2 next hnext =>
    cases hitem
    simp only [hnext]

theorem Holds.exists_cons (h : S.Holds bins) (hhead : S.queue.head = some e) :
    ∃ b bs, bins = b :: bs ∧ e = b.top := by
  have htops := h.denotes.tops
  rw [hhead] at htops
  cases bins with
  | nil => cases htops
  | cons b bs => exact ⟨b, bs, rfl, some.inj htops.1⟩

/-- The event that is served is one of those with the least key, and of these the one that was
inserted last. -/
theorem Holds.serviceOne (h : S.Holds bins) (hhead : S.queue.head = some e) :
    (S.queue.events e).scheduled = true ∧
      ∀ x, (S.queue.events x).scheduled = true →
        S.queue.key e < S.queue.key x ∨
          (S.queue.key e = S.queue.key x ∧ S.insertedAt x ≤ S.insertedAt e) := by
  rcases h.exists_cons hhead with ⟨b, bs, rfl, rfl⟩
  constructor
  · exact (h.mem_iff _).1 (mem_items.2 ⟨b, mem_cons_self, mem_cons_self⟩)
  · intro x hx
    rcases h.binned.least ((h.mem_iff x).2 hx) with hlt | ⟨heq, hmem⟩
    · exact .inl hlt
    · exact .inr ⟨heq, h.recent.le_top mem_cons_self hmem⟩

/-- The head leaves the queue. -/
theorem Holds.takeHead (h : S.Holds bins) (hhead : S.queue.head = some e) :
    ∃ Q' q bins', (S.queue.put e { S.queue.events e with scheduled := false }).removeItem e e =
        some (Q', q) ∧
      SameData (S.queue.put e { S.queue.events e with scheduled := false }) Q' ∧
      S.HoldsOthers { Q' with head := q } e bins' ∧
      ∀ x ∈ items bins', S.queue.key e ≤ S.queue.key x := by
  have hserved := h.serviceOne hhead
  rcases h.exists_cons hhead with ⟨b, bs, rfl, rfl⟩
  generalize hQ : S.queue.put b.top { S.queue.events b.top with scheduled := false } = Q₁
  have hmem : b.top ∈ items (b :: bs) := mem_items.2 ⟨b, mem_cons_self, mem_cons_self⟩
  have hdenotes : Q₁.Denotes S.queue.head (b :: bs) := by
    rw [← hQ]
    exact h.denotes.put rfl rfl
  rcases removeItem_top hdenotes h.binned.nodup with ⟨Q', q, hitem, hremoved⟩
  have hpull : Bin.pull b.top (b :: bs) = Bin.remove S.queue.key b.top (b :: bs) := remove_top.symm
  have hdata : ∀ x, x ≠ b.top → Q'.data x = S.queue.data x := by
    intro x hx
    rw [hremoved.data.data, ← hQ, EventQueue.data, put_of_ne hx]
    rfl
  have htick : Q'.curTick = S.queue.curTick := hremoved.data.curTick.trans (by rw [← hQ]; rfl)
  have hlimit : Q'.limit = S.queue.limit := hremoved.data.limit.trans (by rw [← hQ]; rfl)
  have hdenotes' := hremoved.denotes
  rw [hpull] at hdenotes'
  refine ⟨Q', q, Bin.remove S.queue.key b.top (b :: bs), hitem, hremoved.data, ?_, ?_⟩
  · exact h.without hmem ⟨hdenotes'.tops, hdenotes'.inBins⟩ hdata htick hlimit
  · intro x hx
    rw [h.binned.items_remove hmem] at hx
    rcases hserved.2 x ((h.mem_iff x).1 (mem_of_mem_erase hx)) with hlt | ⟨heq, _⟩
    · exact le_of_lt hlt
    · exact le_of_eq heq

/-! ## One call -/

/-- What a call does. -/
structure Follows (S : Session) (c : Call) (S' : Session) : Prop where
  holds : ∃ bins, S'.Holds bins
  tick : S.queue.curTick ≤ S'.queue.curTick
  moved : ∀ x, S.subject c = some x → (S'.queue.events x).scheduled = c.schedules
  others : ∀ x, S.subject c ≠ some x →
    (S'.queue.events x).scheduled = (S.queue.events x).scheduled

variable {c : Call}

theorem scheduled_put_self (hx : some e = some x) :
    ((Q.put e event).events x).scheduled = event.scheduled := by
  rw [← some.inj hx, put_self]

theorem scheduled_put_of_ne (hx : some e ≠ some x) :
    ((Q.put e event).events x).scheduled = (Q.events x).scheduled := by
  have hne : x ≠ e := fun hxe => hx (congrArg some hxe.symm)
  rw [put_of_ne hne]

section

variable (h : S.Holds bins)

include h

theorem step_schedule (hc : S.Asserted (.schedule e when)) :
    ∃ S', S.step (.schedule e when) = some S' ∧ S.Follows (.schedule e when) S' := by
  rcases hc with ⟨hwhen, hoff, hlive⟩
  rcases (h.others hoff).insert hlive hwhen with ⟨Q', bins', hins, hdata, hholds⟩
  refine ⟨S.inserted e (Q'.put e { Q'.events e with scheduled := true }), ?_,
    ⟨bins', hholds (Q'.events e).squashed⟩, ?_, fun x hx => scheduled_put_self hx, ?_⟩
  · simp only [step, schedule]
    rw [if_pos (by simp [hwhen, hoff, hlive]), hins]
    rfl
  · exact le_of_eq hdata.curTick.symm
  · intro x hx
    exact (scheduled_put_of_ne hx).trans
      ((scheduled_of_data (hdata.data x)).trans (scheduled_put_of_ne hx))

theorem step_deschedule (hc : S.Asserted (.deschedule e)) :
    ∃ S', S.step (.deschedule e) = some S' ∧ S.Follows (.deschedule e) S' := by
  rcases hc with ⟨hon, hlive⟩
  rcases h.remove hon with ⟨Q', hremove, hdata, hothers⟩
  have hbound : (Q'.events e).initialized = true → e < Q'.limit :=
    fun hinit => hothers.bounded e hinit
  refine ⟨{ S with queue := Q'.put e { Q'.events e with squashed := false, scheduled := false } },
    ?_, ⟨_, hothers.settle rfl hbound⟩, le_of_eq hdata.curTick.symm,
    fun x hx => scheduled_put_self hx, ?_⟩
  · simp [step, deschedule, hon, hlive, hremove]
  · intro x hx
    exact (scheduled_put_of_ne hx).trans (scheduled_of_data (hdata.data x))

theorem step_reschedule {always : Bool} (hc : S.Asserted (.reschedule e when always)) :
    ∃ S', S.step (.reschedule e when always) = some S' ∧
    S.Follows (.reschedule e when always) S' := by
  rcases hc with ⟨hwhen, halways, hlive⟩
  -- the event is off the queue before it is inserted again
  have hoff : ∃ Q' bins', (if (S.queue.events e).scheduled then S.queue.remove e
      else some S.queue) = some Q' ∧ SameData S.queue Q' ∧ S.HoldsOthers Q' e bins' := by
    cases hscheduled : (S.queue.events e).scheduled with
    | false => exact ⟨S.queue, bins, rfl, SameData.refl _, h.others hscheduled⟩
    | true =>
      rcases h.remove hscheduled with ⟨Q', hremove, hdata, hothers⟩
      exact ⟨Q', _, hremove, hdata, hothers⟩
  rcases hoff with ⟨Q₁, bins₁, hoff, hdata₁, hothers⟩
  have hlive₁ : (Q₁.events e).initialized = true :=
    (initialized_of_data (hdata₁.data e)).trans hlive
  rcases hothers.insert hlive₁ (hdata₁.curTick ▸ hwhen) with ⟨Q', bins', hins, hdata, hholds⟩
  refine ⟨S.inserted e (Q'.put e { Q'.events e with squashed := false, scheduled := true }), ?_,
    ⟨bins', hholds false⟩, ?_, fun x hx => scheduled_put_self hx, ?_⟩
  · simp only [step, reschedule]
    rw [if_pos (by simp [hwhen, halways, hlive]), hoff, bind_some, hins]
    rfl
  · exact le_of_eq (hdata.curTick.trans hdata₁.curTick).symm
  · intro x hx
    calc _ = (Q'.events x).scheduled := scheduled_put_of_ne hx
      _ = _ := scheduled_of_data (hdata.data x)
      _ = (Q₁.events x).scheduled := scheduled_put_of_ne hx
      _ = (S.queue.events x).scheduled := scheduled_of_data (hdata₁.data x)

theorem step_serviceOne (hc : S.Asserted .serviceOne) :
    ∃ S', S.step .serviceOne = some S' ∧ S.Follows .serviceOne S' := by
  rcases ne_none_iff_exists'.1 hc with ⟨e, hhead⟩
  rcases h.takeHead hhead with ⟨Q', q, bins', hitem, hdata, hothers, hleast⟩
  have hservice := serviceOne_eq hhead hitem
  have hserved := (h.serviceOne hhead).1
  have hbound : (Q'.events e).initialized = true → e < Q'.limit :=
    fun hinit => hothers.bounded e hinit
  have hoff : (Q'.events e).scheduled = false := by rw [scheduled_of_data (hdata.data e), put_self]
  have hmoved : ∀ x, S.queue.head = some x → (Q'.events x).scheduled = false := by
    intro x hx
    rw [← some.inj (hhead.symm.trans hx)]
    exact hoff
  have hothers' : ∀ x, S.queue.head ≠ some x →
      (Q'.events x).scheduled = (S.queue.events x).scheduled := by
    intro x hx
    rw [hhead] at hx
    exact (scheduled_of_data (hdata.data x)).trans (scheduled_put_of_ne hx)
  cases hsquashed : (Q'.events e).squashed with
  | true =>
    rw [hsquashed, if_pos rfl] at hservice
    have hflags :
      ∀ x, (EventQueue.put { Q' with head := q } e { Q'.events e with squashed := false }
        |>.events x).scheduled = (Q'.events x).scheduled := by
      intro x
      refine put_field Event.scheduled ?_ x
      rfl
    have hsettled : Holds { S with queue := (EventQueue.put { Q' with head := q } e
        { Q'.events e with squashed := false }) } bins' := by
      refine hothers.settle ?_ ?_
      · exact hoff
      · exact hbound
    have htick : S.queue.curTick ≤ Q'.curTick := le_of_eq hdata.curTick.symm
    exact ⟨_, by simp [step, hservice], ⟨bins', hsettled⟩, htick,
      fun x hx => (hflags x).trans (hmoved x hx), fun x hx => (hflags x).trans (hothers' x hx)⟩
  | false =>
    rw [hsquashed] at hservice
    have hwhen : (Q'.events e).when = (S.queue.events e).when := by
      rw [when_of_data (hdata.data e), put_self]
    have hsettled : Holds { S with queue := { Q' with head := q } } bins' := by
      have hput := hothers.settle hoff hbound
      rwa [show EventQueue.put { Q' with head := q } e (Q'.events e) = { Q' with head := q } by
        simp [EventQueue.put]] at hput
    have hlater : ∀ x ∈ items bins', (Q'.events e).when ≤ (Q'.events x).when := by
      intro x hx
      have hne : x ≠ e := fun hxe => hothers.not_mem (hxe ▸ hx)
      have hwhenx : (Q'.events x).when = (S.queue.events x).when := by
        rw [when_of_data (hdata.data x), put_of_ne hne]
      have hle := hleast x hx
      rw [EventQueue.key, EventQueue.key, Event.key, Event.key, Prod.Lex.toLex_le_toLex] at hle
      rw [hwhen, hwhenx]
      rcases hle with hlt | ⟨heq, _⟩
      · exact le_of_lt hlt
      · exact le_of_eq heq
    refine ⟨{ S with queue := { Q' with head := q, curTick := (Q'.events e).when } },
      by simp [step, hservice], ⟨bins', hsettled.advance hlater⟩, ?_, hmoved, hothers'⟩
    rw [hwhen]
    exact h.future e ((h.mem_iff e).2 hserved)

/-- A call whose assertions hold has a result. -/
theorem step_spec (hc : S.Asserted c) : ∃ S', S.step c = some S' ∧ S.Follows c S' := by
  cases c with
  | construct e priority =>
    have hc : (S.queue.events e).scheduled = false := hc
    have hraised := (h.raise (le_max_left S.queue.limit (e + 1))).others hc
    have hbound : e < max S.queue.limit (e + 1) := lt_of_lt_of_le (lt_succ_self e) (le_max_right ..)
    have hsettled : Holds { S with queue := (EventQueue.put
        { S.queue with limit := max S.queue.limit (e + 1) } e
        { priority := priority, initialized := true }) } bins := hraised.settle rfl fun _ => hbound
    refine ⟨_, ?_, ⟨bins, hsettled⟩, le_refl _, nofun, ?_⟩
    · simp only [step, construct]
      rw [if_neg (by simp [hc])]
      rfl
    · intro x _
      refine put_field Event.scheduled ?_ x
      exact hc.symm
  | destroy e =>
    have hc : (S.queue.events e).scheduled = false := hc
    have hsettled : Holds { S with queue := (S.queue.put e
        { S.queue.events e with squashed := false, initialized := false }) } bins := by
      refine (h.others hc).settle ?_ nofun
      exact hc
    refine ⟨_, ?_, ⟨bins, hsettled⟩, le_refl _, nofun, ?_⟩
    · simp only [step, destroy]
      rw [if_neg (by simp [hc])]
      rfl
    · intro x _
      refine put_field Event.scheduled ?_ x
      rfl
  | squash e =>
    refine ⟨_, rfl, ⟨bins, h.squash e⟩, le_refl _, nofun, ?_⟩
    intro x _
    refine put_field Event.scheduled ?_ x
    rfl
  | schedule e when => exact step_schedule h hc
  | deschedule e => exact step_deschedule h hc
  | reschedule e when always => exact step_reschedule h hc
  | serviceOne => exact step_serviceOne h hc

end

theorem asserted_of_step (h : S.step c = some S') : S.Asserted c := by
  cases c with
  | construct | destroy =>
    simp only [step, construct, destroy] at h
    split at h
    case isTrue => cases h
    case isFalse hcond => simpa [Asserted] using hcond
  | squash e => trivial
  | schedule | deschedule | reschedule =>
    simp only [step, schedule, deschedule, reschedule] at h
    split at h
    case isTrue hcond => simpa [Asserted, and_assoc] using hcond
    case isFalse => cases h
  | serviceOne =>
    intro hhead
    simp [step, EventQueue.serviceOne, hhead] at h

theorem follows_of_step (hS : S.Holds bins) (h : S.step c = some S') : S.Follows c S' := by
  rcases step_spec hS (asserted_of_step h) with ⟨S'', hstep, hfollows⟩
  rwa [some.inj (h.symm.trans hstep)]

/-! ## Whole runs -/

/-- The queue is a priority queue whose ties are served last in, first out. -/
structure Sound (S : Session) : Prop where
  /-- The links denote bins with increasing keys that hold each scheduled event once. -/
  denotes : ∃ bins, S.queue.Denotes S.queue.head bins ∧ Bin.Binned S.queue.key bins ∧
    ∀ x, x ∈ Bin.items bins ↔ (S.queue.events x).scheduled = true
  /-- Only the event that a call names, or that is served, is put on the queue or taken off it. -/
  moved : ∀ c S', S.step c = some S' → ∀ x, S.subject c = some x →
    (S'.queue.events x).scheduled = c.schedules
  others : ∀ c S', S.step c = some S' → ∀ x, S.subject c ≠ some x →
    (S'.queue.events x).scheduled = (S.queue.events x).scheduled
  /-- An event with the least key is served, of these the one inserted last. -/
  service : ∀ Q' e, S.queue.serviceOne = some (Q', e) → (S.queue.events e).scheduled = true ∧
    (Q'.events e).scheduled = false ∧
    ∀ x, (S.queue.events x).scheduled = true → S.queue.key e < S.queue.key x ∨
      (S.queue.key e = S.queue.key x ∧ S.insertedAt x ≤ S.insertedAt e)
  tick : ∀ c S', S.step c = some S' → S.queue.curTick ≤ S'.queue.curTick
  /-- A call whose assertions hold has a result. -/
  progress : ∀ c, S.Asserted c → (S.step c).isSome = true

theorem serviceOne_head {Q : EventQueue} (h : Q.serviceOne = some (Q', e)) : Q.head = some e := by
  rcases map_eq_some_iff.1 h with ⟨event, hhead, heq⟩
  have hevent : event = e := by simpa [apply_ite Prod.snd] using congrArg Prod.snd heq
  rw [hhead, hevent]

theorem Holds.sound (h : S.Holds bins) : S.Sound where
  denotes := ⟨bins, h.denotes, h.binned, h.mem_iff⟩
  moved := fun c S' hstep => (follows_of_step h hstep).moved
  others := fun c S' hstep => (follows_of_step h hstep).others
  service := by
    intro Q' e hservice
    have hhead := serviceOne_head hservice
    have hstep : S.step .serviceOne = some { S with queue := Q' } := by simp [step, hservice]
    exact ⟨(h.serviceOne hhead).1, (follows_of_step h hstep).moved e hhead, (h.serviceOne hhead).2⟩
  tick := fun c S' hstep => (follows_of_step h hstep).tick
  progress := by
    intro c hc
    rcases step_spec h hc with ⟨S', hstep, _⟩
    rw [hstep]
    rfl

theorem holds_initial : ({} : Session).Holds [] where
  denotes := ⟨rfl, by simp⟩
  binned := ⟨by simp, List.Pairwise.nil, nodup_nil⟩
  recent := by simp [Bin.Recent]
  mem_iff := by simp [items]
  future := by simp [items]
  live := by simp [items]
  bounded := by simp
  earlier := by simp [items]

theorem eventQueue_lifoTies (calls : List Call) : Always step Sound {} calls := by
  have hsound : ∀ S : Session, (∃ bins, S.Holds bins) → S.Sound := fun S hS => by
    rcases hS with ⟨bins, hholds⟩
    exact hholds.sound
  have hstep : ∀ (S : Session) c S', (∃ bins, S.Holds bins) → S.step c = some S' →
      ∃ bins, S'.Holds bins := by
    rintro S c S' ⟨bins, hholds⟩ h
    exact (follows_of_step hholds h).holds
  exact Always.of_invariant hsound hstep ⟨[], holds_initial⟩

/-- Of two events with equal time and priority, the one scheduled last is served first. -/
example : ((({} : EventQueue).construct 0 7).bind fun Q => (Q.construct 1 7).bind fun Q =>
    (Q.schedule 0 5).bind fun Q => (Q.schedule 1 5).bind fun Q => Q.serviceOne.bind fun r =>
      r.1.serviceOne.map fun r' => (r.2, r'.2, r'.1.head, r'.1.curTick)) =
          some (1, 0, none, 5) := by
  decide

end Session

end EventQueue

end EnocGem5.Sim

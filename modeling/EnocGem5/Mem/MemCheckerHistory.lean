import EnocGem5.Lib.Run
import EnocGem5.Lib.Register
import EnocGem5.Mem.MemChecker

/-!
# MemCheckerHistory — the memory checker against linearizable histories

A session reports the reads and writes of one byte to its tracker, at ticks that never decrease.
Beside the tracker it keeps the history of the accesses as an atomic register sees them; an aborted
write vanishes from it. Serials are handed out in increasing order, as the checker does for all
bytes together.

The tracker forgets most of the history. What it keeps is described by `Reads` for the reads and by
`Writes` for the clusters: a write that has been dropped is followed by a complete cluster that no
outstanding read overlaps.
-/

namespace EnocGem5.MemChecker

open Lib List Function WriteCluster Option Nat

/-! ## Sessions -/

inductive Report
  | startRead (serial : ℕ)
  | completeRead (serial : ℕ) (data : UInt8)
  | startWrite (serial : ℕ) (data : UInt8)
  | completeWrite (serial : ℕ)
  | abortWrite (serial : ℕ)
  deriving DecidableEq, Repr

structure Call where
  tick : ℕ
  report : Report
  deriving DecidableEq, Repr

/-- `answers` are the answers of `completeRead`, `none` for a failed assertion. -/
structure Session where
  tracker : ByteTracker := {}
  curTick : ℕ := 0
  nextSerial : ℕ := serialInitial
  history : History ℕ UInt8 := fun _ => none
  answers : List (Option Bool) := []

namespace Session

variable (S : Session)

/-- The access with this serial, if it is of this kind and still open. -/
def openAccess (serial : ℕ) (isWrite : Bool) : Option (Access UInt8) :=
  (S.history serial).filter fun a => a.isWrite = isWrite && a.stop.isNone

def recordStart (tick serial : ℕ) (isWrite : Bool) (data : UInt8) (T : ByteTracker) : Session :=
  { S with
    tracker := T
    curTick := tick
    nextSerial := serial + 1
    history := Function.update S.history serial
      (some { start := tick, stop := none, isWrite := isWrite, value := data }) }

def recordEnd (tick serial : ℕ) (a : Option (Access UInt8)) (T : ByteTracker) : Session :=
  { S with tracker := T, curTick := tick, history := Function.update S.history serial a }

/-- A report to the tracker; `none` if it is not the report of a transaction, or if an assertion of
the write clusters fails. -/
def report (tick : ℕ) : Report → Option Session
  | .startRead serial =>
    if serial < S.nextSerial then none
    else some (S.recordStart tick serial false dataInitial (S.tracker.startRead serial tick))
  | .completeRead serial data => do
    let a ← S.openAccess serial false
    let (answer, T) ← S.tracker.completeRead serial tick data tick
    let S := S.recordEnd tick serial (some { a with stop := some tick, value := data }) T
    pure { S with answers := S.answers ++ [answer] }
  | .startWrite serial data =>
    if serial < S.nextSerial then none
    else (S.tracker.startWrite serial tick data).map (S.recordStart tick serial true data)
  | .completeWrite serial => do
    let a ← S.openAccess serial true
    let T ← S.tracker.completeWrite serial tick tick
    pure (S.recordEnd tick serial (some { a with stop := some tick }) T)
  | .abortWrite serial => do
    let _ ← S.openAccess serial true
    pure (S.recordEnd tick serial none (S.tracker.abortWrite serial))

def step (c : Call) : Option Session :=
  if c.tick < S.curTick then none else S.report c.tick c.report

end Session

/-! ## What the tracker knows -/

/-- A transaction as an access; it is open if its completion lies in the future. -/
def Transaction.asAccess (t : Transaction) (isWrite : Bool) : Access UInt8 :=
  { start := t.start
    stop := if t.complete = tickFuture then none else some t.complete
    isWrite := isWrite
    value := t.data }

/-- The history so far. -/
structure Timed (H : History ℕ UInt8) (now next : ℕ) : Prop where
  now_lt : now < tickFuture
  fresh : ∀ i, next ≤ i → H i = none
  started : ∀ i a, H i = some a → a.start ≤ now
  stopped : ∀ i a c, H i = some a → a.stop = some c → a.start ≤ c ∧ c ≤ now

structure Reads (reads observations : List Transaction) (H : History ℕ UInt8) (now : ℕ) : Prop where
  outstanding : ∀ t ∈ reads, t.complete = tickFuture ∧ H t.serial = some (t.asAccess false)
  listed : ∀ i a, H i = some a → a.isWrite = false → a.stop = none → ∃ t ∈ reads, t.serial = i
  sorted : reads.Pairwise fun t t' => t.serial < t'.serial ∧ t.start ≤ t'.start
  observed : ∀ t ∈ observations,
    t = initialTransaction ∨ t.complete ≠ tickFuture ∧ H t.serial = some (t.asAccess false)
  first : ∃ o rest, observations = o :: rest ∧ o.complete ≤ now ∧ ∀ r ∈ reads, o.complete ≤ r.start

structure WriteCluster.Sound (K : WriteCluster) (now : ℕ) : Prop where
  nodup : (K.writes.map Transaction.serial).Nodup
  max_le : K.completeMax ≤ now
  le_max : ∀ t ∈ K.writes, t.complete = tickFuture ∨ t.complete ≤ K.completeMax
  incomplete : K.complete = tickFuture →
    K.numIncomplete = K.writes.countP fun t => t.complete = tickFuture
  complete_le : K.complete ≠ tickFuture → K.complete ≤ now
  complete_ne : K.complete ≠ tickFuture → K.writes ≠ []
  le_complete : K.complete ≠ tickFuture → ∀ t ∈ K.writes, t.complete ≤ K.complete

/-- All writes of the first cluster precede those of the second one. -/
structure WriteCluster.Before (K K' : WriteCluster) : Prop where
  complete : K.complete ≠ tickFuture
  serial : ∀ t ∈ K.writes, ∀ t' ∈ K'.writes, t.serial < t'.serial
  precedes : ∀ t ∈ K.writes, ∀ t' ∈ K'.writes, t.complete ≤ t'.start

/-- The write `i` has been dropped: it precedes all writes of the first cluster, and those precede
all outstanding reads. -/
structure Dropped (reads : List Transaction) (clusters : List WriteCluster) (i : ℕ)
    (a : Access UInt8) : Prop where
  follower : ∃ K rest c, clusters = K :: rest ∧ K.complete ≠ tickFuture ∧ a.stop = some c ∧
    (∀ t ∈ K.writes, i < t.serial ∧ c ≤ t.start) ∧ ∀ r ∈ reads, K.complete ≤ r.start

structure Writes (reads : List Transaction) (clusters : List WriteCluster) (H : History ℕ UInt8)
    (now : ℕ) : Prop where
  sound : ∀ K ∈ clusters, K.Sound now
  recorded : ∀ K ∈ clusters, ∀ t ∈ K.writes, H t.serial = some (t.asAccess true)
  ordered : clusters.Pairwise WriteCluster.Before
  covered : ∀ i a, H i = some a → a.isWrite = true →
    (∃ K ∈ clusters, ∃ t ∈ K.writes, t.serial = i) ∨ Dropped reads clusters i a

structure Session.Inv (S : Session) : Prop where
  timed : Timed S.history S.curTick S.nextSerial
  reads : Reads S.tracker.outstandingReads S.tracker.readObservations S.history S.curTick
  writes : Writes S.tracker.outstandingReads S.tracker.writeClusters S.history S.curTick

/-! ## Facts about single entries -/

variable {t r : Transaction} {isWrite : Bool} {H H' : History ℕ UInt8}
  {serial tick now next before i : ℕ} {b : Option (Access UInt8)} {a : Access UInt8}
  {T : ByteTracker} {data : UInt8} {reads observations : List Transaction}
  {clusters front : List WriteCluster} {K K' : WriteCluster} {c : Call} {α : Type*}

theorem asAccess_open (h : t.complete = tickFuture) : (t.asAccess isWrite).stop = none := if_pos h

theorem asAccess_stop (h : t.complete ≠ tickFuture) :
    (t.asAccess isWrite).stop = some t.complete := if_neg h

theorem complete_of_open (h : (t.asAccess isWrite).stop = none) : t.complete = tickFuture := by
  by_contra hne
  rw [asAccess_stop hne] at h
  cases h

theorem update_iff {kind : Bool}
    (hold : ∀ a, H serial = some a → a.isWrite ≠ kind) (hnew : ∀ a, b = some a → a.isWrite ≠ kind)
    (i : ℕ) (a : Access UInt8) (ha : a.isWrite = kind) : update H serial b i = some a ↔
    H i = some a := by
  by_cases his : i = serial
  · subst his
    rw [update_self]
    exact ⟨fun h => absurd ha (hnew a h), fun h => absurd ha (hold a h)⟩
  · rw [update_of_ne his]

theorem update_some (h : update H serial b i = some a) :
    (i = serial ∧ b = some a) ∨ (i ≠ serial ∧ H i = some a) := by
  by_cases his : i = serial
  · subst his
    rw [update_self] at h
    exact .inl ⟨rfl, h⟩
  · rw [update_of_ne his] at h
    exact .inr ⟨his, h⟩

theorem forall_mem_concat {P : α → Prop} {l : List α} {y : α} (hl : ∀ x ∈ l, P x) (hy : P y) :
    ∀ x ∈ l ++ [y], P x :=
  forall_mem_append.2 ⟨hl, forall_mem_singleton.2 hy⟩

/-- One entry of a list and the others. -/
theorem mem_middle {x t : α} {pre post : List α} : x ∈ pre ++ t :: post ↔ x = t ∨ x ∈ pre ++ post :=
  perm_middle.mem_iff.trans mem_cons

theorem Timed.mono (h : Timed H now next) (hle : now ≤ tick)
    (htick : tick < tickFuture) : Timed H tick next where
  now_lt := htick
  fresh := h.fresh
  started i a hi := (h.started i a hi).trans hle
  stopped i a c hi hc := ⟨(h.stopped i a c hi hc).1, (h.stopped i a c hi hc).2.trans hle⟩

theorem Timed.serial_lt (h : Timed H now next) (hi : H i = some a) : i < next := by
  by_contra hle
  rw [h.fresh i (not_lt.1 hle)] at hi
  cases hi

theorem Timed.start (h : Timed H now next)
    (hserial : next ≤ serial) (isWrite : Bool) (data : UInt8) :
    Timed (update H serial
      (some { start := now, stop := none, isWrite := isWrite, value := data })) now (serial + 1)
      where
  now_lt := h.now_lt
  fresh i hi := by
    rw [update_of_ne (by omega)]
    exact h.fresh i (by omega)
  started i a hi := by
    rcases update_some hi with ⟨-, hi⟩ | ⟨-, hi⟩
    · cases hi
      exact le_rfl
    · exact h.started i a hi
  stopped i a c hi hc := by
    rcases update_some hi with ⟨-, hi⟩ | ⟨-, hi⟩
    · cases hi
      cases hc
    · exact h.stopped i a c hi hc

theorem Timed.stop (h : Timed H now next) (ha : H serial = some a) {a' : Option (Access UInt8)}
    (hstart : ∀ b, a' = some b → b.start = a.start ∧ b.stop = some now) :
    Timed (update H serial a') now next where
  now_lt := h.now_lt
  fresh i hi := by
    have hne : i ≠ serial := by
      rintro rfl
      exact absurd (h.serial_lt ha) (by omega)
    rw [update_of_ne hne]
    exact h.fresh i hi
  started i b hi := by
    rcases update_some hi with ⟨rfl, hnew⟩ | ⟨-, hi⟩
    · rw [(hstart b hnew).1]
      exact h.started i a ha
    · exact h.started i b hi
  stopped i b c hi hc := by
    rcases update_some hi with ⟨rfl, hnew⟩ | ⟨-, hi⟩
    · rcases hstart b hnew with ⟨hb, hb'⟩
      obtain rfl : now = c := some.inj (hb'.symm.trans hc)
      rw [hb]
      exact ⟨h.started i a ha, le_rfl⟩
    · exact h.stopped i b c hi hc

/-! ## Reads -/

section Reads

theorem Reads.mono (h : Reads reads observations H now) (hle : now ≤ tick) :
    Reads reads observations H tick :=
  { h with
    first := by
      rcases h.first with ⟨o, rest, hobs, ho, hreads⟩
      exact ⟨o, rest, hobs, ho.trans hle, hreads⟩ }

/-- Only the entries of reads matter. -/
theorem Reads.frame (h : Reads reads observations H now)
    (hH : ∀ i a, a.isWrite = false → (H' i = some a ↔ H i = some a)) :
    Reads reads observations H' now where
  outstanding t ht := ⟨(h.outstanding t ht).1, (hH _ _ rfl).2 (h.outstanding t ht).2⟩
  listed i a hi hread hopen := h.listed i a ((hH i a hread).1 hi) hread hopen
  __ := h
  observed t ht := by
    rcases h.observed t ht with hinit | ⟨hc, hserial⟩
    · exact .inl hinit
    · exact .inr ⟨hc, (hH _ _ rfl).2 hserial⟩

theorem ByteTracker.startRead_eq {start : ℕ} (h : ∀ t ∈ T.outstandingReads, t.serial < serial) :
    T.startRead serial start = { T with
      outstandingReads := T.outstandingReads ++
        [{ serial := serial, start := start, complete := tickFuture }] } := by
  have hnew : T.outstandingReads.any (fun t => t.serial = serial) = false := by
    rw [List.any_eq_false]
    intro t ht
    simpa using (h t ht).ne
  have htake : T.outstandingReads.takeWhile (fun t => t.serial < serial) = T.outstandingReads :=
    takeWhile_eq_self_iff.2 fun t ht => by simpa using h t ht
  have hdrop : T.outstandingReads.dropWhile (fun t => t.serial < serial) = [] :=
    dropWhile_eq_nil_iff.2 fun t ht => by simpa using h t ht
  unfold startRead
  rw [hnew, htake, hdrop]
  rfl

variable (h : Reads reads observations H now)
include h

theorem Reads.start (htimed : Timed H now next) (hserial : next ≤ serial) :
    Reads (reads ++ [{ serial := serial, start := now, complete := tickFuture }]) observations
      (update H serial
        (some { start := now, stop := none, isWrite := false, value := dataInitial })) now := by
  have hold : ∀ i a, H i = some a → update H serial
      (some { start := now, stop := none, isWrite := false, value := dataInitial }) i = some a := by
    intro i a hi
    have hlt : i < next := htimed.serial_lt hi
    rw [update_of_ne (by omega)]
    exact hi
  constructor
  case outstanding =>
    refine forall_mem_concat (fun t ht => ?_) ⟨rfl, by rw [update_self]; rfl⟩
    exact ⟨(h.outstanding t ht).1, hold _ _ (h.outstanding t ht).2⟩
  case listed =>
    intro i a hi hread hopen
    rcases update_some hi with ⟨his, -⟩ | ⟨-, hi⟩
    · exact ⟨_, mem_concat_self, his.symm⟩
    · rcases h.listed i a hi hread hopen with ⟨t, ht, hti⟩
      exact ⟨t, mem_append_left _ ht, hti⟩
  case sorted =>
    refine pairwise_append.2 ⟨h.sorted, pairwise_singleton _ _,
      fun t ht => forall_mem_singleton.2 ?_⟩
    have hlt : t.serial < next := htimed.serial_lt (h.outstanding t ht).2
    have hstart : t.start ≤ now := htimed.started _ _ (h.outstanding t ht).2
    exact ⟨hlt.trans_le hserial, hstart⟩
  case observed =>
    intro t ht
    exact (h.observed t ht).imp id fun ⟨hc, hserial⟩ => ⟨hc, hold _ _ hserial⟩
  case first =>
    rcases h.first with ⟨o, rest, hobs, ho, hreads⟩
    exact ⟨o, rest, hobs, ho, forall_mem_concat hreads ho⟩

theorem Reads.complete (htimed : Timed H now next) {start : ℕ}
    (ha : H serial = some a) (hopen : a.stop = none)
    (hstart : a.start = start) (hread : a.isWrite = false) :
    Reads (reads.filter fun t => t.serial ≠ serial)
      (observations ++ [{ serial := serial, start := start, complete := now, data := data }])
      (update H serial (some { a with stop := some now, value := data })) now := by
  have hne : now ≠ tickFuture := htimed.now_lt.ne
  constructor
  case outstanding =>
    intro t ht
    rcases mem_filter.1 ht with ⟨ht, hother⟩
    refine ⟨(h.outstanding t ht).1, ?_⟩
    rw [update_of_ne (by simpa using hother)]
    exact (h.outstanding t ht).2
  case listed =>
    intro i b hi hread' hopen'
    rcases update_some hi with ⟨-, hi⟩ | ⟨hne, hi⟩
    · cases hi
      cases hopen'
    · rcases h.listed i b hi hread' hopen' with ⟨t, ht, rfl⟩
      exact ⟨t, mem_filter.2 ⟨ht, by simpa using hne⟩, rfl⟩
  case sorted => exact h.sorted.filter _
  case observed =>
    refine forall_mem_concat (fun t ht => ?_) (.inr ⟨hne, ?_⟩)
    · rcases h.observed t ht with hinit | ⟨hc, hserial⟩
      · exact .inl hinit
      · -- the read that completes was open, an observation is not
        have hother : t.serial ≠ serial := by
          intro heq
          have hsame : t.asAccess false = a := some.inj (hserial.symm.trans (heq ▸ ha))
          rw [← hsame, asAccess_stop hc] at hopen
          cases hopen
        refine .inr ⟨hc, ?_⟩
        rw [update_of_ne hother]
        exact hserial
    · simp [Transaction.asAccess, hne, hstart, hread]
  case first =>
    rcases h.first with ⟨o, rest, rfl, ho, hreads⟩
    refine ⟨o, rest ++ [_], rfl, ho, fun r hr => hreads r (mem_filter.1 hr).1⟩

/-- Observations before the last one that completed in time are not needed. -/
theorem Reads.prune (hnow : before ≤ now)
    (hbefore : ∀ r ∈ reads, before ≤ r.start) {o : Transaction} {rest : List Transaction}
    (hlast : lastCompletedTransaction Transaction.complete before observations = some (o, rest)) :
    Reads reads (o :: rest) H now := by
  rcases lastCompletedTransaction_some hlast with ⟨front, rfl, hfront, -⟩
  refine ⟨h.outstanding, h.listed, h.sorted, fun t ht => h.observed t (mem_append_right _ ht), o,
    rest, rfl, ?_⟩
  rcases hfront with rfl | hlt
  · rcases h.first with ⟨o', rest', hobs, ho, hreads⟩
    cases hobs
    exact ⟨ho, hreads⟩
  · exact ⟨hlt.le.trans hnow, fun r hr => hlt.le.trans (hbefore r hr)⟩

end Reads

/-! ## Write clusters -/

theorem WriteCluster.Sound.mono (h : K.Sound now) (hle : now ≤ tick) : K.Sound tick :=
  { h with
    max_le := h.max_le.trans hle
    complete_le := fun hc => (h.complete_le hc).trans hle }

theorem WriteCluster.sound_empty : ({} : WriteCluster).Sound now where
  nodup := nodup_nil
  max_le := zero_le now
  le_max _ ht := absurd ht not_mem_nil
  incomplete _ := rfl
  complete_le h := absurd rfl h
  complete_ne h := absurd rfl h
  le_complete h := absurd rfl h

/-- One write of a cluster and the others. -/
theorem WriteCluster.Sound.split (h : K.Sound now) (ht : t ∈ K.writes) :
    ∃ pre post, K.writes = pre ++ t :: post ∧ ∀ x ∈ pre ++ post, x.serial ≠ t.serial := by
  rcases append_of_mem ht with ⟨pre, post, hsplit⟩
  refine ⟨pre, post, hsplit, fun x hx heq => ?_⟩
  have hnodup := h.nodup
  rw [hsplit, map_append, map_cons, nodup_middle, nodup_cons, ← map_append] at hnodup
  exact hnodup.1 (mem_map.2 ⟨x, hx, heq⟩)

theorem WriteCluster.Sound.numIncomplete_eq (h : K.Sound now) (hopen : K.complete = tickFuture)
    (ht : t.complete = tickFuture) {pre post : List Transaction}
    (hsplit : K.writes = pre ++ t :: post) :
    K.numIncomplete = (pre ++ post).countP (fun t => t.complete = tickFuture) + 1 := by
  rw [h.incomplete hopen, hsplit, countP_append, countP_cons_of_pos (by simpa using ht),
    countP_append, Nat.add_assoc]

/-- With no incomplete write left, all are completed by the maximum. -/
theorem le_max_of_countP {writes : List Transaction} {most : ℕ}
    (hle : ∀ t ∈ writes, t.complete = tickFuture ∨ t.complete ≤ most)
    (hcount : writes.countP (fun t => t.complete = tickFuture) = 0) :
    ∀ t ∈ writes, t.complete ≤ most := by
  intro t ht
  have hnone := countP_eq_zero.1 hcount t ht
  exact (hle t ht).resolve_left (by simpa using hnone)

theorem WriteCluster.startWrite_spec (h : K.Sound now) (hopen : K.complete = tickFuture)
    (hnew : ∀ t ∈ K.writes, t.serial < serial) (hK : K.startWrite serial now data = some K') :
    K'.Sound now ∧ K'.complete = tickFuture ∧
      K'.writes =
      K.writes ++ [{ serial := serial, start := now, complete := tickFuture, data := data }] := by
  have hany : K.writes.any (fun t => t.serial = serial) = false := by
    rw [List.any_eq_false]
    intro t ht
    simpa using (hnew t ht).ne
  rcases ite_none_left_eq_some.1 hK with ⟨-, hK⟩
  rcases ite_none_right_eq_some.1 hK with ⟨-, hK⟩
  rw [hany] at hK
  cases hK
  refine ⟨?_, hopen, rfl⟩
  constructor
  case nodup =>
    change ((K.writes ++ [_]).map Transaction.serial).Nodup
    rw [map_append, nodup_append]
    refine ⟨h.nodup, nodup_singleton _, fun i hi j hj => ?_⟩
    rcases mem_map.1 hi with ⟨t, ht, rfl⟩
    rw [mem_singleton.1 hj]
    exact (hnew t ht).ne
  case max_le => exact h.max_le
  case le_max => exact forall_mem_concat h.le_max (.inl rfl)
  case incomplete =>
    intro _
    change K.numIncomplete + 1 = (K.writes ++ [_]).countP _
    rw [countP_append, h.incomplete hopen, countP_singleton]
    rfl
  case complete_le => exact fun hne => absurd hopen hne
  case complete_ne => exact fun hne => absurd hopen hne
  case le_complete => exact fun hne => absurd hopen hne

theorem WriteCluster.completeWrite_spec (h : K.Sound now) (hopen : K.complete = tickFuture)
    (hnow : now < tickFuture) (ht : t ∈ K.writes) (htopen : t.complete = tickFuture)
    (hK : K.completeWrite t.serial now = some K') :
    K'.Sound now ∧ ∃ pre post, K.writes = pre ++ t :: post ∧
      K'.writes = pre ++ { t with complete := now } :: post ∧
      ∀ x ∈ pre ++ post, x.serial ≠ t.serial := by
  rcases h.split ht with ⟨pre, post, hsplit, hothers⟩
  have hcount := h.numIncomplete_eq hopen htopen hsplit
  -- only the entry of `t` changes
  have hkeep : ∀ xs : List Transaction, (∀ x ∈ xs, x.serial ≠ t.serial) →
      xs.map (fun x => if x.serial = t.serial then { x with complete := now } else x) = xs := by
    intro xs hxs
    refine (map_congr_left fun x hx => ?_).trans (map_id xs)
    exact if_neg (hxs x hx)
  have hmap : K.writes.map (fun x => if x.serial = t.serial then { x with complete := now } else x)
      = pre ++ { t with complete := now } :: post := by
    rw [hsplit, map_append, map_cons, hkeep pre fun x hx => hothers x (mem_append_left _ hx),
      hkeep post fun x hx => hothers x (mem_append_right _ hx), if_pos rfl]
  have hmax : (if K.completeMax < now then now else K.completeMax) = now := by
    split
    · rfl
    · exact le_antisymm h.max_le (by omega)
  have hle : ∀ x ∈ pre ++ { t with complete := now } :: post, x.complete = tickFuture ∨
      x.complete ≤ now := by
    intro x hx
    rcases mem_middle.1 hx with rfl | hx
    · exact .inr le_rfl
    · have hxK : x ∈ K.writes := hsplit ▸ mem_middle.2 (.inr hx)
      exact (h.le_max x hxK).imp id fun hle => hle.trans h.max_le
  have hcount' :
      (pre ++ { t with complete := now } :: post).countP (fun t => t.complete = tickFuture)
      = (pre ++ post).countP fun t => t.complete = tickFuture := by
    rw [countP_append, countP_cons_of_neg (by simpa using hnow.ne), countP_append]
  unfold completeWrite at hK
  split at hK
  case h_1 hnone =>
    have hno := find?_eq_none.1 hnone t ht
    simp at hno
  case h_2 write _ =>
    rcases ite_none_right_eq_some.1 hK with ⟨-, hK⟩
    simp only [hmap, hmax] at hK
    cases hK
    refine ⟨?_, pre, post, hsplit, rfl, hothers⟩
    constructor
    case nodup =>
      have hnodup := h.nodup
      rw [hsplit] at hnodup
      simpa using hnodup
    case max_le => exact le_rfl
    case le_max => exact hle
    case incomplete =>
      intro _
      rw [hcount', hcount]
      rfl
    case complete_le =>
      intro hdone
      split at hdone
      · rw [if_pos ‹_›]
      · exact absurd hopen hdone
    case complete_ne =>
      intro _
      exact append_ne_nil_of_right_ne_nil _ (cons_ne_nil _ _)
    case le_complete =>
      intro hdone
      split at hdone
      case isFalse => exact absurd hopen hdone
      case isTrue hone =>
        rw [if_pos hone]
        exact le_max_of_countP hle (by rw [hcount']; omega)

theorem WriteCluster.abortWrite_spec (h : K.Sound now) (hopen : K.complete = tickFuture)
    (ht : t ∈ K.writes) (htopen : t.complete = tickFuture) :
    (K.abortWrite t.serial).Sound now ∧ ∃ pre post, K.writes = pre ++ t :: post ∧
      (K.abortWrite t.serial).writes = pre ++ post ∧ ∀ x ∈ pre ++ post, x.serial ≠ t.serial := by
  rcases h.split ht with ⟨pre, post, hsplit, hothers⟩
  have hcount := h.numIncomplete_eq hopen htopen hsplit
  have hfilter : K.writes.filter (fun x => x.serial ≠ t.serial) = pre ++ post := by
    rw [hsplit, filter_append, filter_cons_of_neg (by simp), ← filter_append, filter_eq_self]
    intro x hx
    simpa using hothers x hx
  have hmem : ∀ x ∈ pre ++ post, x ∈ K.writes := by
    intro x hx
    rw [← hfilter] at hx
    exact (mem_filter.1 hx).1
  have hle : ∀ x ∈ pre ++ post, x.complete = tickFuture ∨ x.complete ≤ K.completeMax :=
    fun x hx => h.le_max x (hmem x hx)
  have hany : K.writes.any (fun x => x.serial = t.serial) = true :=
    any_eq_true.2 ⟨t, ht, by simp⟩
  have habort : K.abortWrite t.serial = { K with
      writes := pre ++ post
      numIncomplete := K.numIncomplete - 1
      complete := if K.numIncomplete = 1 ∧ pre ++ post ≠ [] then K.completeMax
          else K.complete } := by
    unfold abortWrite
    rw [if_pos hany]
    simp only [hfilter]
  rw [habort]
  refine ⟨?_, pre, post, hsplit, rfl, hothers⟩
  constructor
  case nodup =>
    have hnodup := h.nodup
    rw [hsplit, map_append, map_cons, nodup_middle, nodup_cons, ← map_append] at hnodup
    exact hnodup.2
  case max_le => exact h.max_le
  case le_max => exact hle
  case incomplete =>
    intro _
    dsimp only
    omega
  case complete_le =>
    intro hdone
    split at hdone
    case isFalse => exact absurd hopen hdone
    case isTrue hone =>
      rw [if_pos hone]
      exact h.max_le
  case complete_ne =>
    intro hdone
    split at hdone
    case isFalse => exact absurd hopen hdone
    case isTrue hone => exact hone.2
  case le_complete =>
    intro hdone
    dsimp only at hdone ⊢
    split at hdone
    case isFalse => exact absurd hopen hdone
    case isTrue hone =>
      rw [if_pos hone]
      exact le_max_of_countP hle (by omega)

theorem Writes.mono (h : Writes reads clusters H now) (hle : now ≤ tick) :
    Writes reads clusters H tick :=
  { h with sound := fun K hK => (h.sound K hK).mono hle }

/-- A write in a cluster that is complete has completed. -/
theorem Writes.completed (h : Writes reads clusters H now) (hnow : now < tickFuture)
    (hK : K ∈ clusters) (hdone : K.complete ≠ tickFuture) (ht : t ∈ K.writes) :
    t.complete < tickFuture :=
  calc t.complete ≤ K.complete := (h.sound K hK).le_complete hdone t ht
    _ ≤ now := (h.sound K hK).complete_le hdone
    _ < tickFuture := hnow

/-- Reads may end, and a read that starts now follows all complete clusters. -/
theorem Writes.withReads (h : Writes reads clusters H now)
    (hH : ∀ i a, a.isWrite = true → (H' i = some a ↔ H i = some a)) {reads' : List Transaction}
    (hreads' : ∀ r ∈ reads', r ∈ reads ∨ r.start = now) : Writes reads' clusters H' now where
  __ := h
  recorded K hK t ht := (hH _ _ rfl).2 (h.recorded K hK t ht)
  covered i a hi hwrite := by
    refine (h.covered i a ((hH i a hwrite).1 hi) hwrite).imp id fun hdropped => ?_
    rcases hdropped.follower with ⟨K, rest, c, rfl, hdone, hstop, hbefore, hreads⟩
    refine ⟨K, rest, c, rfl, hdone, hstop, hbefore, fun r hr => ?_⟩
    rcases hreads' r hr with hr | hr
    · exact hreads r hr
    · rw [hr]
      exact (h.sound K mem_cons_self).complete_le hdone

/-- The last cluster, which is incomplete, is changed. -/
theorem Writes.replaceLast (h : Writes reads (front ++ [K]) H now) (hopen : K.complete = tickFuture)
    (hsound : K'.Sound now) (hrecorded : ∀ t ∈ K'.writes, H' t.serial = some (t.asAccess true))
    (hfront : ∀ K₀ ∈ front, ∀ t ∈ K₀.writes, H' t.serial = H t.serial)
    (hbefore : ∀ K₀ ∈ front, K₀.Before K → K₀.Before K')
    (hcovered : ∀ i a, H' i = some a → a.isWrite = true →
      (∃ t ∈ K'.writes, t.serial = i) ∨ H i = some a ∧ ∀ t ∈ K.writes, t.serial ≠ i) :
    Writes reads (front ++ [K']) H' now := by
  rcases pairwise_append.1 h.ordered with ⟨hordered, -, hlast⟩
  constructor
  case sound => exact forall_mem_concat (fun K₀ hK₀ => h.sound K₀ (mem_append_left _ hK₀)) hsound
  case recorded =>
    refine forall_mem_concat (fun K₀ hK₀ t ht => ?_) hrecorded
    rw [hfront K₀ hK₀ t ht]
    exact h.recorded K₀ (mem_append_left _ hK₀) t ht
  case ordered =>
    exact pairwise_append.2 ⟨hordered, pairwise_singleton _ _, fun K₀ hK₀ =>
      forall_mem_singleton.2 (hbefore K₀ hK₀ (hlast K₀ hK₀ K mem_cons_self))⟩
  case covered =>
    intro i a hi hwrite
    rcases hcovered i a hi hwrite with ⟨t, ht, rfl⟩ | ⟨hi, hnot⟩
    · exact .inl ⟨K', mem_concat_self, t, ht, rfl⟩
    · rcases h.covered i a hi hwrite with ⟨K₀, hK₀, t, ht, rfl⟩ | hdropped
      · left
        rcases mem_append.1 hK₀ with hK₀ | hK₀
        · exact ⟨K₀, mem_append_left _ hK₀, t, ht, rfl⟩
        · rw [mem_singleton.1 hK₀] at ht
          exact absurd rfl (hnot t ht)
      · right
        rcases hdropped.follower with ⟨K₀, rest, c, hclusters, hdone, hrest⟩
        -- the follower is complete, so it is not the last cluster
        cases front with
        | nil =>
          cases hclusters
          exact absurd hopen hdone
        | cons K₁ front =>
          cases hclusters
          exact ⟨K₀, front ++ [K'], c, rfl, hdone, hrest⟩

theorem Writes.open (h : Writes reads clusters H now)
    (hall : ∀ K ∈ clusters, K.complete ≠ tickFuture) :
    Writes reads (clusters ++ [({} : WriteCluster)]) H now := by
  constructor
  case sound => exact forall_mem_concat h.sound sound_empty
  case recorded => exact forall_mem_concat h.recorded (forall_mem_nil _)
  case ordered =>
    refine pairwise_append.2 ⟨h.ordered, pairwise_singleton _ _,
      fun K hK => forall_mem_singleton.2 ?_⟩
    exact ⟨hall K hK, fun _ _ _ ht => absurd ht not_mem_nil, fun _ _ _ ht => absurd ht not_mem_nil⟩
  case covered =>
    intro i a hi hwrite
    rcases h.covered i a hi hwrite with ⟨K, hK, ht⟩ | hdropped
    · exact .inl ⟨K, mem_append_left _ hK, ht⟩
    · rcases hdropped.follower with ⟨K, rest, c, hK, hrest⟩
      exact .inr ⟨K, rest ++ [_], c, by rw [hK, cons_append], hrest⟩

theorem Writes.getIncomplete (h : Writes reads T.writeClusters H now)
    (hget : T.getIncompleteWriteCluster = (front, K)) :
    Writes reads (front ++ [K]) H now ∧ K.complete = tickFuture := by
  unfold ByteTracker.getIncompleteWriteCluster at hget
  split at hget
  case h_1 hnone =>
    cases hget
    have hnil : T.writeClusters = [] := getLast?_eq_none_iff.1 hnone
    rw [hnil] at h
    exact ⟨h.open nofun, rfl⟩
  case h_2 K₀ hsome =>
    rcases getLast?_eq_some_iff.1 hsome with ⟨older, hclusters⟩
    split at hget
    case isTrue hdone =>
      -- the last cluster is complete, like all before it
      cases hget
      have hordered := h.ordered
      rw [hclusters] at hordered
      refine ⟨h.open ?_, rfl⟩
      rw [hclusters]
      refine forall_mem_concat (fun K hK => ?_) (by simpa [isComplete] using hdone)
      exact ((pairwise_append.1 hordered).2.2 K hK K₀ mem_cons_self).complete
    case isFalse hopen =>
      cases hget
      rw [hclusters, dropLast_concat, ← hclusters]
      exact ⟨h, by simpa [isComplete] using hopen⟩

section LastCluster

variable (h : Writes reads (front ++ [K]) H now)
include h

/-- An open write stands in the last cluster. -/
theorem Writes.open_mem (hnow : now < tickFuture)
    (ha : H serial = some a) (hwrite : a.isWrite = true) (hopen : a.stop = none) :
    (∃ t ∈ K.writes, t.serial = serial ∧ t.complete = tickFuture ∧ a = t.asAccess true) ∧
      ∀ K₀ ∈ front, ∀ t ∈ K₀.writes, t.serial ≠ serial := by
  have hentry : ∀ K₀ ∈ front ++ [K], ∀ t ∈ K₀.writes, t.serial = serial →
      a = t.asAccess true ∧ t.complete = tickFuture := by
    intro K₀ hK₀ t ht heq
    have hrecorded := h.recorded K₀ hK₀ t ht
    rw [heq, ha] at hrecorded
    have hsame : a = t.asAccess true := some.inj hrecorded
    exact ⟨hsame, complete_of_open (hsame ▸ hopen)⟩
  have hfront : ∀ K₀ ∈ front, ∀ t ∈ K₀.writes, t.serial ≠ serial := by
    intro K₀ hK₀ t ht heq
    have hmem : K₀ ∈ front ++ [K] := mem_append_left _ hK₀
    have hdone := ((pairwise_append.1 h.ordered).2.2 K₀ hK₀ K mem_cons_self).complete
    exact absurd (hentry K₀ hmem t ht heq).2 (h.completed hnow hmem hdone ht).ne
  refine ⟨?_, hfront⟩
  rcases h.covered serial a ha hwrite with ⟨K₀, hK₀, t, ht, heq⟩ | hdropped
  · rcases mem_append.1 hK₀ with hK₁ | hK₁
    · exact absurd heq (hfront K₀ hK₁ t ht)
    · rcases hentry K₀ hK₀ t ht heq with ⟨hsame, hcomplete⟩
      rw [mem_singleton.1 hK₁] at ht
      exact ⟨t, ht, heq, hcomplete, hsame⟩
  · rcases hdropped.follower with ⟨K₀, rest, c, -, -, hstop, -⟩
    rw [hopen] at hstop
    cases hstop

theorem Writes.start (hopen : K.complete = tickFuture)
    (htimed : Timed H now next) (hserial : next ≤ serial)
    (hK : K.startWrite serial now data = some K') :
    Writes reads (front ++ [K']) (update H serial
      (some { start := now, stop := none, isWrite := true, value := data })) now := by
  have hlt : ∀ K₀ ∈ front ++ [K], ∀ t ∈ K₀.writes, t.serial < serial := by
    intro K₀ hK₀ t ht
    exact lt_of_lt_of_le (htimed.serial_lt (h.recorded K₀ hK₀ t ht)) hserial
  have hKmem : K ∈ front ++ [K] := mem_concat_self
  rcases startWrite_spec (h.sound K hKmem) hopen (hlt K hKmem) hK with ⟨hsound, -, hwrites⟩
  have hkeep : ∀ K₀ ∈ front ++ [K], ∀ t ∈ K₀.writes, update H serial
      (some { start := now, stop := none, isWrite := true, value := data }) t.serial = H t.serial :=
    fun K₀ hK₀ t ht => update_of_ne (hlt K₀ hK₀ t ht).ne _ _
  apply h.replaceLast hopen hsound
  · rw [hwrites]
    refine forall_mem_concat (fun t ht => ?_) (by rw [update_self]; rfl)
    rw [hkeep K hKmem t ht]
    exact h.recorded K hKmem t ht
  · exact fun K₀ hK₀ t ht => hkeep K₀ (mem_append_left _ hK₀) t ht
  · -- the new write starts now, after all writes of the complete clusters
    intro K₀ hK₀ hbefore
    have hK₀' : K₀ ∈ front ++ [K] := mem_append_left _ hK₀
    refine ⟨hbefore.complete, fun t ht => ?_, fun t ht => ?_⟩
    · rw [hwrites]
      exact forall_mem_concat (hbefore.serial t ht) (hlt K₀ hK₀' t ht)
    · rw [hwrites]
      exact forall_mem_concat (hbefore.precedes t ht)
        (((h.sound K₀ hK₀').le_complete hbefore.complete t ht).trans
        ((h.sound K₀ hK₀').complete_le hbefore.complete))
  · intro i a hi _
    rw [hwrites]
    rcases update_some hi with ⟨his, -⟩ | ⟨-, hi⟩
    · exact .inl ⟨_, mem_concat_self, his.symm⟩
    · by_cases hin : ∃ t ∈ K.writes, t.serial = i
      · rcases hin with ⟨t, ht, hti⟩
        exact .inl ⟨t, mem_append_left _ ht, hti⟩
      · exact .inr ⟨hi, fun t ht hti => hin ⟨t, ht, hti⟩⟩

theorem Writes.complete (hopen : K.complete = tickFuture)
    (hnow : now < tickFuture) (ha : H serial = some a) (hwrite : a.isWrite = true)
    (hstop : a.stop = none) (hK : K.completeWrite serial now = some K') :
    Writes reads (front ++ [K']) (update H serial (some { a with stop := some now })) now := by
  rcases h.open_mem hnow ha hwrite hstop with ⟨⟨t, ht, rfl, htopen, rfl⟩, hfront⟩
  have hKmem : K ∈ front ++ [K] := mem_concat_self
  rcases completeWrite_spec (h.sound K hKmem) hopen hnow ht htopen hK with
    ⟨hsound, pre, post, hwrites, hwrites', hothers⟩
  have hcases : ∀ x ∈ K'.writes, x = { t with complete := now } ∨ x ∈ pre ++ post :=
    fun x hx => mem_middle.1 (hwrites' ▸ hx)
  have hold : ∀ x ∈ pre ++ post, x ∈ K.writes := fun x hx => hwrites ▸ mem_middle.2 (.inr hx)
  apply h.replaceLast hopen hsound
  · intro x hx
    rcases hcases x hx with rfl | hx
    · simp [Transaction.asAccess, hnow.ne]
    · rw [update_of_ne (hothers x hx)]
      exact h.recorded K hKmem x (hold x hx)
  · exact fun K₀ hK₀ x hx => update_of_ne (hfront K₀ hK₀ x hx) _ _
  · intro K₀ _ hbefore
    refine ⟨hbefore.complete, fun x hx x' hx' => ?_, fun x hx x' hx' => ?_⟩
    · rcases hcases x' hx' with rfl | hx'
      · exact hbefore.serial x hx t ht
      · exact hbefore.serial x hx x' (hold x' hx')
    · rcases hcases x' hx' with rfl | hx'
      · exact hbefore.precedes x hx t ht
      · exact hbefore.precedes x hx x' (hold x' hx')
  · intro i b hi _
    by_cases hin : ∃ x ∈ K'.writes, x.serial = i
    · exact .inl hin
    · right
      have hnot : ∀ x ∈ K.writes, x.serial ≠ i := by
        intro x hx hxi
        rw [hwrites'] at hin
        rcases mem_middle.1 (hwrites ▸ hx) with rfl | hx
        · exact hin ⟨_, mem_middle.2 (.inl rfl), hxi⟩
        · exact hin ⟨x, mem_middle.2 (.inr hx), hxi⟩
      rw [update_of_ne (hnot t ht).symm] at hi
      exact ⟨hi, hnot⟩

theorem Writes.abort (hopen : K.complete = tickFuture)
    (hnow : now < tickFuture) (ha : H serial = some a) (hwrite : a.isWrite = true)
    (hstop : a.stop = none) :
    Writes reads (front ++ [K.abortWrite serial]) (update H serial none) now := by
  rcases h.open_mem hnow ha hwrite hstop with ⟨⟨t, ht, rfl, htopen, -⟩, hfront⟩
  have hKmem : K ∈ front ++ [K] := mem_concat_self
  rcases abortWrite_spec (h.sound K hKmem) hopen ht htopen with
    ⟨hsound, pre, post, hwrites, hwrites', hothers⟩
  have hold : ∀ x ∈ (K.abortWrite t.serial).writes, x ∈ K.writes :=
    fun x hx => hwrites ▸ mem_middle.2 (.inr (hwrites' ▸ hx))
  apply h.replaceLast hopen hsound
  · intro x hx
    rw [update_of_ne (hothers x (hwrites' ▸ hx))]
    exact h.recorded K hKmem x (hold x hx)
  · exact fun K₀ hK₀ x hx => update_of_ne (hfront K₀ hK₀ x hx) _ _
  · intro K₀ _ hbefore
    exact ⟨hbefore.complete, fun x hx x' hx' => hbefore.serial x hx x' (hold x' hx'),
      fun x hx x' hx' => hbefore.precedes x hx x' (hold x' hx')⟩
  · intro i b hi _
    rcases update_some hi with ⟨-, hnone⟩ | ⟨hne, hi⟩
    · cases hnone
    · by_cases hin : ∃ x ∈ (K.abortWrite t.serial).writes, x.serial = i
      · exact .inl hin
      · refine .inr ⟨hi, fun x hx hxi => ?_⟩
        rcases mem_middle.1 (hwrites ▸ hx) with rfl | hx
        · exact hne hxi.symm
        · exact hin ⟨x, hwrites' ▸ hx, hxi⟩

end LastCluster

/-- Clusters before the last one that completed in time are not needed. -/
theorem Writes.prune (h : Writes reads clusters H now) (htimed : Timed H now next)
    (hle : before ≤ now) (hbefore : ∀ r ∈ reads, before ≤ r.start) {clusters' : List WriteCluster}
    (hprune : ByteTracker.pruneClusters clusters before = some clusters') :
    Writes reads clusters' H now := by
  unfold ByteTracker.pruneClusters at hprune
  split at hprune
  case isTrue hempty =>
    cases hprune
    rwa [isEmpty_iff.1 hempty] at h
  case isFalse =>
    rcases map_eq_some_iff.1 hprune with ⟨⟨K, rest⟩, hlast, rfl⟩
    rcases lastCompletedTransaction_some hlast with ⟨front, rfl, hfront, -⟩
    rcases hfront with rfl | hlt
    · exact h
    · have hKdone : K.complete ≠ tickFuture := by
        have := htimed.now_lt
        omega
      rcases pairwise_append.1 h.ordered with ⟨-, hordered, hsplit⟩
      have hfollow : ∀ K₀ ∈ front, K₀.Before K := fun K₀ hK₀ => hsplit K₀ hK₀ K mem_cons_self
      refine ⟨fun K' hK' => h.sound K' (mem_append_right _ hK'),
        fun K' hK' => h.recorded K' (mem_append_right _ hK'), hordered, fun i a hi hwrite => ?_⟩
      have hreads : ∀ r ∈ reads, K.complete ≤ r.start := fun r hr => hlt.le.trans (hbefore r hr)
      rcases h.covered i a hi hwrite with ⟨K₀, hK₀, t, ht, rfl⟩ | hdropped
      · rcases mem_append.1 hK₀ with hfrontK | hrestK
        · -- a write of a cluster that is dropped now
          right
          have hK₀before := hfollow K₀ hfrontK
          have hdone := h.completed htimed.now_lt hK₀ hK₀before.complete ht
          obtain rfl : a = t.asAccess true :=
            some.inj (hi.symm.trans (h.recorded K₀ hK₀ t ht))
          exact ⟨K, rest, t.complete, rfl, hKdone, asAccess_stop hdone.ne,
            fun t' ht' => ⟨hK₀before.serial t ht t' ht', hK₀before.precedes t ht t' ht'⟩, hreads⟩
        · exact .inl ⟨K₀, hrestK, t, ht, rfl⟩
      · right
        rcases hdropped.follower with ⟨K₀, rest₀, c, hclusters, hdone, hstop, hafter, hreads₀⟩
        cases front with
        | nil =>
          cases hclusters
          exact ⟨K, rest, c, rfl, hdone, hstop, hafter, hreads₀⟩
        | cons K₁ front =>
          cases hclusters
          -- the old follower has a write, which lies between
          have hK₀mem : K₀ ∈ K₀ :: front ++ K :: rest := mem_cons_self
          have hK₀before := hfollow K₀ mem_cons_self
          rcases exists_mem_of_ne_nil _ ((h.sound K₀ hK₀mem).complete_ne hdone) with ⟨t, ht⟩
          have htdone := h.completed htimed.now_lt hK₀mem hdone ht
          have htlen := (htimed.stopped t.serial _ t.complete (h.recorded K₀ hK₀mem t ht)
            (asAccess_stop htdone.ne)).1
          refine ⟨K, rest, c, rfl, hKdone, hstop, fun t' ht' => ⟨?_, ?_⟩, hreads⟩
          · exact (hafter t ht).1.trans (hK₀before.serial t ht t' ht')
          · calc c ≤ t.start := (hafter t ht).2
              _ ≤ t.complete := htlen
              _ ≤ t'.start := hK₀before.precedes t ht t' ht'

/-! ## The answer to a read -/

/-- What the tracker knows when the read `r` completes and the history becomes `H'`; `O` is the last
observation. -/
structure Completing (T : ByteTracker) (H' : History ℕ UInt8) (r O : Transaction) : Prop where
  write : ∀ K ∈ T.writeClusters, ∀ t ∈ K.writes, H' t.serial = some (t.asAccess true)
  precedes : ∀ K ∈ T.writeClusters, ∀ t ∈ K.writes, t.complete ≤ r.start →
    Precedes H' t.serial r.serial
  observation : O = initialTransaction ∨ H' O.serial = some (O.asAccess false) ∧
    O.start ≤ O.complete ∧ O.complete < tickFuture ∧ Precedes H' O.serial r.serial

/-- The history after the read `r` has got `data`. -/
def afterRead (H : History ℕ UInt8) (r : Transaction) (now : ℕ) (data : UInt8) : History ℕ UInt8 :=
  Function.update H r.serial (some { r.asAccess false with stop := some now, value := data })

/-- The writes do not notice the end of a read. -/
theorem afterRead_iff (hr : H r.serial = some (r.asAccess false)) (data : UInt8) :
    ∀ i a, a.isWrite = true → (afterRead H r now data i = some a ↔ H i = some a) := by
  apply update_iff
  · intro a ha
    rw [← some.inj (hr.symm.trans ha)]
    exact Bool.false_ne_true
  · intro a ha
    cases ha
    exact Bool.false_ne_true

theorem Completing.of_inv (htimed : Timed H now next)
    (hreads : Reads T.outstandingReads T.readObservations H now)
    (hwrites : Writes T.outstandingReads T.writeClusters H now) {O : Transaction}
    (hr : r ∈ T.outstandingReads) {later : List Transaction}
    (hlast : lastCompletedTransaction Transaction.complete r.start T.readObservations =
    some (O, later)) : Completing T (afterRead H r now data) r O := by
  rcases hreads.outstanding r hr with ⟨hropen, hrH⟩
  generalize hH' : afterRead H r now data = H'
  have hr' : H' r.serial = some { r.asAccess false with stop := some now, value := data } := by
    rw [← hH', afterRead, update_self]
  have hrstart : r.start < tickFuture := lt_of_le_of_lt (htimed.started _ _ hrH) htimed.now_lt
  -- writes and observations are not affected
  have hother : ∀ i a, H i = some a → a ≠ r.asAccess false → H' i = some a := by
    intro i a hi hne
    have hirs : i ≠ r.serial := by
      rintro rfl
      exact hne (some.inj (hi.symm.trans hrH))
    rw [← hH', afterRead, update_of_ne hirs]
    exact hi
  have hwrite : ∀ K ∈ T.writeClusters, ∀ t ∈ K.writes, H' t.serial = some (t.asAccess true) := by
    intro K hK t ht
    apply hother _ _ (hwrites.recorded K hK t ht)
    intro heq
    cases congrArg Access.isWrite heq
  refine ⟨hwrite, fun K hK t ht hle => ?_, ?_⟩
  · exact ⟨t.asAccess true, _, t.complete, hwrite K hK t ht, hr',
      asAccess_stop (lt_of_le_of_lt hle hrstart).ne, hle⟩
  · rcases lastCompletedTransaction_some hlast with ⟨front, hobs, hfront, -⟩
    have hOle : O.complete ≤ r.start := by
      rcases hfront with rfl | hlt
      · rcases hreads.first with ⟨o, rest, hobs', -, ho⟩
        obtain rfl : O = o := (cons.inj (hobs.symm.trans hobs')).1
        exact ho r hr
      · exact hlt.le
    have hmem : O ∈ T.readObservations := by
      rw [hobs]
      exact mem_append_right _ mem_cons_self
    refine (hreads.observed O hmem).imp id fun ⟨hc, hserial⟩ => ?_
    have hO' : H' O.serial = some (O.asAccess false) := by
      apply hother _ _ hserial
      intro heq
      have hstops := congrArg Access.stop heq
      rw [asAccess_stop hc, asAccess_open hropen] at hstops
      cases hstops
    exact ⟨hO', (htimed.stopped _ _ _ hserial (asAccess_stop hc)).1, lt_of_le_of_lt hOle hrstart,
      O.asAccess false, _, O.complete, hO', hr', asAccess_stop hc, hOle⟩

section Seen

variable {r O : Transaction} (h : Completing T H' r O)
  (hwrites : Writes T.outstandingReads T.writeClusters H now)

include h hwrites

/-- The write that a completing read has seen was dropped: its follower comes between them. -/
theorem Completing.not_dropped (hr : r ∈ T.outstandingReads) {w : ℕ}
    {W : Access UInt8} (hw : H' w = some W)
    (hlater : ∀ i a, H' i = some a → a.isWrite = true → i ≠ w → Precedes H' w i →
      ¬ Precedes H' i r.serial) : ¬ Dropped T.outstandingReads T.writeClusters w W := by
  intro hdropped
  rcases hdropped.follower with ⟨K, rest, c, hclusters, hdone, hstop, hafter, hbefore⟩
  have hK : K ∈ T.writeClusters := by
    rw [hclusters]
    exact mem_cons_self
  rcases exists_mem_of_ne_nil _ ((hwrites.sound K hK).complete_ne hdone) with ⟨t, ht⟩
  have hle : t.complete ≤ r.start :=
    ((hwrites.sound K hK).le_complete hdone t ht).trans (hbefore r hr)
  exact hlater _ _ (h.write K hK t ht) rfl (hafter t ht).1.ne'
    ⟨W, _, c, hw, h.write K hK t ht, hstop, (hafter t ht).2⟩ (h.precedes K hK t ht hle)

/-- The cluster of the write `t` that a completing read has seen is scanned: a settled write of a
later cluster would come between them. -/
theorem Completing.scanned (hnow : now < tickFuture) {older younger : List WriteCluster}
    (hclusters : T.writeClusters = older ++ K :: younger) (ht : t ∈ K.writes)
    (hlater : ∀ i a, H' i = some a → a.isWrite = true → i ≠ t.serial → Precedes H' t.serial i →
      ¬ Precedes H' i r.serial) : ∀ K' ∈ younger, ∀ t' ∈ K'.writes, ¬ Settled O r.start t' := by
  intro K' hK' t' ht' hset
  have hordered := hwrites.ordered
  rw [hclusters] at hordered
  have hbefore : K.Before K' := (pairwise_cons.1 (pairwise_append.1 hordered).2.1).1 K' hK'
  have hK : K ∈ T.writeClusters := by
    rw [hclusters]
    exact mem_append_right _ mem_cons_self
  have hK'mem : K' ∈ T.writeClusters := by
    rw [hclusters]
    exact mem_append_right _ (mem_cons_of_mem K hK')
  have hdone := hwrites.completed hnow hK hbefore.complete ht
  have hprec : Precedes H' t.serial t'.serial :=
    ⟨t.asAccess true, t'.asAccess true, t.complete, h.write K hK t ht, h.write K' hK'mem t' ht',
      asAccess_stop hdone.ne, hbefore.precedes t ht t' ht'⟩
  exact hlater _ _ (h.write K' hK'mem t' ht') rfl (hbefore.serial t ht t' ht').ne' hprec
    (h.precedes K' hK'mem t' ht' hset.2)

end Seen

/-- In a linearizable history a completing read is not reported. -/
theorem inExpectedData_ne_false (htimed : Timed H now next)
    (hreads : Reads T.outstandingReads T.readObservations H now)
    (hwrites : Writes T.outstandingReads T.writeClusters H now) (hr : r ∈ T.outstandingReads)
    (hlin : Linearizable (afterRead H r now data)) :
    ({ T with outstandingReads := reads }.inExpectedData r.start now data).1 ≠ some false := by
  intro hfalse
  rcases ByteTracker.inExpectedData_false hfalse with ⟨O, later, hlast, hunmatched, hreason⟩
  have hview : Completing T (afterRead H r now data) r O :=
    Completing.of_inv htimed hreads hwrites hr hlast
  rcases hlin with ⟨init, order, hL⟩
  have hr' : afterRead H r now data r.serial =
      some { r.asAccess false with stop := some now, value := data } :=
    update_self ..
  cases hL.source hr' rfl rfl with
  | init hnowrite hseen =>
    -- no write precedes `r`, so the last observation is valid, and it has seen the same value
    rcases hreason with ⟨hvalid, hdata⟩ | ⟨⟨K, hK, t, ht, hset⟩, -⟩
    · rcases hview.observation with rfl | ⟨hO', -, -, hprec⟩
      · exact hvalid rfl
      · exact hdata (hseen _ _ hO' rfl hprec)
    · exact hnowrite _ _ (hview.write K hK t ht) rfl (hview.precedes K hK t ht hset.2)
  | write w W hw hW hvalue hlater hseen =>
    have hwH : H w = some W := (afterRead_iff (hreads.outstanding r hr).2 data w W hW).1 hw
    rcases hwrites.covered w W hwH hW with ⟨K, hK, t, ht, rfl⟩ | hdropped
    · obtain rfl : W = t.asAccess true := some.inj (hwH.symm.trans (hwrites.recorded K hK t ht))
      rcases append_of_mem hK with ⟨older, younger, hclusters⟩
      have hquiet := hview.scanned hwrites htimed.now_lt hclusters ht hlater
      -- the cluster is scanned, so `t` must have been ignored
      have hignored : t.complete < O.start :=
        (hunmatched older K younger hclusters hquiet t ht).resolve_right (not_not_intro hvalue)
      rcases hview.observation with rfl | ⟨hO', hOlen, hOdone, hOprec⟩
      · exact absurd hignored (not_lt_zero _)
      · have hstop : (t.asAccess true).stop = some t.complete := asAccess_stop (by omega)
        rcases hreason with ⟨-, hdata⟩ | ⟨-, hinit | ⟨K', hK', t', ht', hset, hlate⟩⟩
        · exact hdata (hseen _ _ hO' rfl ⟨_, _, t.complete, hw, hO', hstop, hignored.le⟩ hOprec)
        · rw [hinit] at hOlen
          exact absurd (lt_of_lt_of_le hignored hOlen) (not_lt_zero _)
        · -- a write after the last observation and before `r`
          have htle : t.complete < t'.start := by omega
          have hne : t'.serial ≠ t.serial := by
            intro heq
            have hsame := hview.write K' hK' t' ht'
            rw [heq, hw] at hsame
            have hstart : t.start = t'.start := congrArg Access.start (some.inj hsame)
            have hlen : t.start ≤ t.complete := (htimed.stopped _ _ _ hwH hstop).1
            omega
          exact hlater _ _ (hview.write K' hK' t' ht') rfl hne
            ⟨_, _, t.complete, hw, hview.write K' hK' t' ht', hstop, htle.le⟩
            (hview.precedes K' hK' t' ht' hset.2)
    · exact hview.not_dropped hwrites hr hw hlater hdropped

/-! ## Steps -/

namespace Session

variable {S S' : Session}

theorem Inv.init : ({} : Session).Inv where
  timed := ⟨by decide, fun _ _ => rfl, nofun, nofun⟩
  reads := ⟨forall_mem_nil _, nofun, List.Pairwise.nil,
    fun t ht => .inl (mem_singleton.1 ht), _, _, rfl, le_rfl, forall_mem_nil _⟩
  writes := ⟨forall_mem_nil _, forall_mem_nil _,
    List.Pairwise.nil, nofun⟩

theorem Inv.advance (h : S.Inv) (hle : S.curTick ≤ tick) (htick : tick < tickFuture) :
    { S with curTick := tick }.Inv where
  timed := h.timed.mono hle htick
  reads := h.reads.mono hle
  writes := h.writes.mono hle

theorem openAccess_some (h : S.openAccess serial isWrite = some a) :
    S.history serial = some a ∧ a.isWrite = isWrite ∧ a.stop = none := by
  rcases filter_eq_some_iff.1 h with ⟨ha, hopen⟩
  refine ⟨ha, ?_⟩
  simpa using hopen

theorem Inv.prune (h : S.Inv) (hT : S.tracker.pruneTransactions S.curTick = some T) :
    { S with tracker := T }.Inv := by
  rcases bind_eq_some_iff.1 hT with ⟨⟨o, rest⟩, hobs, hT⟩
  rcases bind_eq_some_iff.1 hT with ⟨clusters, hclusters, hT⟩
  cases hT
  -- the tick before which entries may be dropped
  have hbefore : ((S.tracker.outstandingReads.head?.map Transaction.start).getD S.curTick) ≤
      S.curTick ∧ ∀ r ∈ S.tracker.outstandingReads,
        ((S.tracker.outstandingReads.head?.map Transaction.start).getD S.curTick) ≤ r.start := by
    have hreads := h.reads
    revert hreads
    generalize S.tracker.outstandingReads = reads
    intro hreads
    cases reads with
    | nil => exact ⟨le_rfl, forall_mem_nil _⟩
    | cons first others =>
      refine ⟨h.timed.started _ _ (hreads.outstanding first mem_cons_self).2, fun r hr => ?_⟩
      rcases mem_cons.1 hr with rfl | hr
      · exact le_rfl
      · exact ((pairwise_cons.1 hreads.sorted).1 r hr).2
  exact ⟨h.timed, h.reads.prune hbefore.1 hbefore.2 hobs,
    h.writes.prune h.timed hbefore.1 hbefore.2 hclusters⟩

/-- What a report does: it keeps the invariant and extends the history, and the answer to a read, if
there is one, is not `false` unless the history has become unlinearizable. -/
structure Reported (S S' : Session) : Prop where
  inv : S'.Inv
  upTo : UpTo S.curTick S.history S'.history
  answers : S'.answers = S.answers ∨ ∃ answer, S'.answers = S.answers ++ [answer] ∧
    (Linearizable S'.history → answer ≠ some false)

section

variable (h : S.Inv)

include h

theorem Inv.stopped : ∀ i a c, S.history i = some a → a.stop = some c → c ≤ S.curTick :=
  fun i a c hi hc => (h.timed.stopped i a c hi hc).2

theorem Inv.startRead (hserial : S.nextSerial ≤ serial) :
    Reported S (S.recordStart S.curTick serial false dataInitial
      (S.tracker.startRead serial S.curTick)) := by
  have hnew : S.history serial = none := h.timed.fresh serial hserial
  have hlt : ∀ t ∈ S.tracker.outstandingReads, t.serial < serial := fun t ht =>
    lt_of_lt_of_le (h.timed.serial_lt (h.reads.outstanding t ht).2) hserial
  rw [ByteTracker.startRead_eq hlt]
  refine ⟨⟨h.timed.start hserial false dataInitial, h.reads.start h.timed hserial, ?_⟩,
    UpTo.start h.stopped hnew rfl, .inl rfl⟩
  apply h.writes.withReads
  · apply update_iff
    · intro a ha
      rw [hnew] at ha
      cases ha
    · intro a ha
      cases ha
      exact Bool.false_ne_true
  · intro r hr
    exact (mem_append.1 hr).imp id fun hr => by rw [mem_singleton.1 hr]

theorem Inv.startWrite (hserial : S.nextSerial ≤ serial)
    (hT : S.tracker.startWrite serial S.curTick data = some T) :
    Reported S (S.recordStart S.curTick serial true data T) := by
  have hnew : S.history serial = none := h.timed.fresh serial hserial
  unfold ByteTracker.startWrite at hT
  cases hget : S.tracker.getIncompleteWriteCluster with
  | mk front K =>
    rw [hget] at hT
    rcases map_eq_some_iff.1 hT with ⟨K', hK', rfl⟩
    rcases h.writes.getIncomplete hget with ⟨hwrites, hopen⟩
    refine ⟨⟨h.timed.start hserial true data, h.reads.frame (update_iff ?_ ?_),
      hwrites.start hopen h.timed hserial hK'⟩, UpTo.start h.stopped hnew rfl, .inl rfl⟩
    · intro a ha
      rw [hnew] at ha
      cases ha
    · intro a ha
      cases ha
      exact Bool.false_ne_true.symm

/-- The reads do not notice the end of a write. -/
theorem Inv.reads_of_write (ha : S.history serial = some a)
    (hwrite : a.isWrite = true) (hb : ∀ b', b = some b' → b'.isWrite = true) :
    Reads S.tracker.outstandingReads S.tracker.readObservations
      (update S.history serial b) S.curTick := by
  apply h.reads.frame
  apply update_iff
  · intro a' ha'
    rw [← some.inj (ha.symm.trans ha'), hwrite]
    exact Bool.false_ne_true.symm
  · intro b' hb'
    rw [hb b' hb']
    exact Bool.false_ne_true.symm

theorem Inv.completeWrite (ha : S.openAccess serial true = some a)
    (hT : S.tracker.completeWrite serial S.curTick S.curTick = some T) :
    Reported S (S.recordEnd S.curTick serial (some { a with stop := some S.curTick }) T) := by
  rcases openAccess_some ha with ⟨ha, hwrite, hstop⟩
  unfold ByteTracker.completeWrite at hT
  cases hget : S.tracker.getIncompleteWriteCluster with
  | mk front K =>
    rw [hget] at hT
    rcases bind_eq_some_iff.1 hT with ⟨K', hK', hT⟩
    rcases h.writes.getIncomplete hget with ⟨hwrites, hopen⟩
    have hmarked : (S.recordEnd S.curTick serial (some { a with stop := some S.curTick })
        { S.tracker with writeClusters := front ++ [K'] }).Inv :=
      ⟨h.timed.stop ha (fun b hb => by cases hb; exact ⟨rfl, rfl⟩),
        h.reads_of_write ha hwrite (fun b hb => by cases hb; exact hwrite),
        hwrites.complete hopen h.timed.now_lt ha hwrite hstop hK'⟩
    refine ⟨hmarked.prune hT, UpTo.stop h.stopped ha hstop fun b hb => ?_, .inl rfl⟩
    cases hb
    exact ⟨rfl, rfl, fun _ => rfl⟩

theorem Inv.abortWrite (ha : S.openAccess serial true = some a) :
    Reported S (S.recordEnd S.curTick serial none (S.tracker.abortWrite serial)) := by
  rcases openAccess_some ha with ⟨ha, hwrite, hstop⟩
  have hlast : ∃ front K, S.tracker.getIncompleteWriteCluster = (front, K) := ⟨_, _, rfl⟩
  rcases hlast with ⟨front, K, hget⟩
  rcases h.writes.getIncomplete hget with ⟨hwrites, hopen⟩
  have htracker : S.tracker.abortWrite serial
      = { S.tracker with writeClusters := front ++ [K.abortWrite serial] } := by
    unfold ByteTracker.abortWrite
    rw [hget]
  rw [htracker]
  exact ⟨⟨h.timed.stop ha nofun, h.reads_of_write ha hwrite nofun,
    hwrites.abort hopen h.timed.now_lt ha hwrite hstop⟩, UpTo.stop h.stopped ha hstop nofun,
    .inl rfl⟩

theorem Inv.completeRead (ha : S.openAccess serial false = some a) {answer : Option Bool}
    (hT : S.tracker.completeRead serial S.curTick data S.curTick = some (answer, T)) :
    Reported S
      { S.recordEnd S.curTick serial (some { a with stop := some S.curTick, value := data }) T with
        answers := S.answers ++ [answer] } := by
  rcases openAccess_some ha with ⟨ha, hread, hstop⟩
  unfold ByteTracker.completeRead at hT
  split at hT
  case h_1 hnone =>
    -- an open read is always found
    rcases h.reads.listed serial a ha hread hstop with ⟨t, ht, heq⟩
    have hno := find?_eq_none.1 hnone t ht
    simp [heq] at hno
  case h_2 r hfind =>
    have hr : r ∈ S.tracker.outstandingReads := mem_of_find?_eq_some hfind
    obtain rfl : r.serial = serial := by simpa using find?_some hfind
    obtain rfl : a = r.asAccess false := some.inj (ha.symm.trans (h.reads.outstanding r hr).2)
    rcases map_eq_some_iff.1 hT with ⟨T', hprune, heq⟩
    cases heq
    have hwrites : Writes (S.tracker.outstandingReads.filter fun t => t.serial ≠ r.serial)
        S.tracker.writeClusters (afterRead S.history r S.curTick data) S.curTick :=
      h.writes.withReads (afterRead_iff ha data) fun x hx => .inl (mem_filter.1 hx).1
    have hmarked : ∀ expected, (S.recordEnd S.curTick r.serial
        (some { r.asAccess false with stop := some S.curTick, value := data })
        { S.tracker with
          outstandingReads := S.tracker.outstandingReads.filter fun t => t.serial ≠ r.serial
          lastExpectedData := expected
          readObservations := S.tracker.readObservations ++
            [{ serial := r.serial, start := r.start, complete := S.curTick,
               data := data }] }).Inv :=
      fun _ => ⟨h.timed.stop ha (fun b hb => by cases hb; exact ⟨rfl, rfl⟩),
        h.reads.complete h.timed ha hstop rfl rfl, hwrites⟩
    have hpruned := (hmarked _).prune hprune
    refine ⟨{ hpruned with }, ?_, .inr ⟨_, rfl, ?_⟩⟩
    · refine UpTo.stop h.stopped ha hstop fun b hb => ?_
      cases hb
      exact ⟨rfl, rfl, fun hwrite => nomatch hwrite⟩
    · exact fun hlin => inExpectedData_ne_false h.timed h.reads h.writes hr hlin

theorem step_reported (hc : c.tick < tickFuture) (hstep : S.step c = some S') :
    Reported { S with curTick := c.tick } S' := by
  rcases ite_none_left_eq_some.1 hstep with ⟨hle, hstep⟩
  have hadv := h.advance (not_lt.1 hle) hc
  rcases c with ⟨tick, rep⟩
  cases rep with
  | startRead serial =>
    rcases ite_none_left_eq_some.1 hstep with ⟨hserial, hstep⟩
    cases hstep
    exact hadv.startRead (not_lt.1 hserial)
  | completeRead serial data =>
    rcases bind_eq_some_iff.1 hstep with ⟨a, ha, hstep⟩
    rcases bind_eq_some_iff.1 hstep with ⟨⟨answer, T⟩, hT, hstep⟩
    cases hstep
    exact hadv.completeRead ha hT
  | startWrite serial data =>
    rcases ite_none_left_eq_some.1 hstep with ⟨hserial, hstep⟩
    rcases map_eq_some_iff.1 hstep with ⟨T, hT, rfl⟩
    exact hadv.startWrite (not_lt.1 hserial) hT
  | completeWrite serial =>
    rcases bind_eq_some_iff.1 hstep with ⟨a, ha, hstep⟩
    rcases bind_eq_some_iff.1 hstep with ⟨T, hT, hstep⟩
    cases hstep
    exact hadv.completeWrite ha hT
  | abortWrite serial =>
    rcases bind_eq_some_iff.1 hstep with ⟨a, ha, hstep⟩
    cases hstep
    exact hadv.abortWrite ha

end

/-! ## Runs -/

/-- If the accesses so far are linearizable, no read has been reported. -/
def NoFalseAlarm (S : Session) : Prop := Linearizable S.history → some false ∉ S.answers

theorem Inv.step (h : S.Inv ∧ S.NoFalseAlarm) (hc : c.tick < tickFuture)
    (hstep : S.step c = some S') : S'.Inv ∧ S'.NoFalseAlarm := by
  have hrep := step_reported h.1 hc hstep
  refine ⟨hrep.inv, fun hlin hmem => ?_⟩
  -- the earlier accesses were linearizable too
  have hold : some false ∉ S.answers := h.2 (hlin.of_upTo hrep.upTo)
  rcases hrep.answers with hsame | ⟨answer, hanswers, hanswer⟩
  · rw [hsame] at hmem
    exact hold hmem
  · rw [hanswers] at hmem
    rcases mem_append.1 hmem with hmem | hmem
    · exact hold hmem
    · exact hanswer hlin (mem_singleton.1 hmem).symm

/-- The checker raises no false alarm as long as no tick is the one that stands for the future. -/
theorem no_false_alarm {calls : List Call} (hticks : ∀ c ∈ calls, c.tick < tickFuture) :
    Always Session.step NoFalseAlarm {} calls := by
  have hinit : ({} : Session).Inv ∧ ({} : Session).NoFalseAlarm :=
    ⟨Inv.init, fun _ h => absurd h not_mem_nil⟩
  have hguard : Throughout Session.step (fun _ c => c.tick < tickFuture) {} calls :=
    Throughout.of_forall_mem fun c hc _ => hticks c hc
  exact Always.of_throughout (fun S hS => hS.2) (fun S c S' hS hc => Inv.step hS hc) hinit hguard

/-- A write overlaps a read that sees it, and a later read sees it again. -/
def overlapping : List Call :=
  [⟨1, .startWrite 0 5⟩, ⟨2, .startRead 1⟩, ⟨4, .completeRead 1 5⟩, ⟨5, .completeWrite 0⟩,
    ⟨6, .startWrite 2 7⟩, ⟨6, .startRead 3⟩, ⟨8, .abortWrite 2⟩, ⟨9, .completeRead 3 5⟩]

theorem no_false_alarm_overlapping :
    (overlapping.foldlM Session.step {}).map Session.answers = some [some true, some true] ∧
      Always Session.step NoFalseAlarm {} overlapping :=
  ⟨by decide, no_false_alarm (by decide)⟩

/-- A write is under way when a read starts at `MaxTick`. -/
def atMaxTick : List Call :=
  [⟨10, .startWrite 0 5⟩, ⟨tickFuture, .startRead 1⟩, ⟨tickFuture, .completeRead 1 0⟩]

/-- The read sees the value before the write. It is reported, because the write seems to have
completed by then. -/
theorem false_alarm_at_maxTick :
    ∃ Q, atMaxTick.foldlM Session.step {} = some Q ∧ Linearizable Q.history ∧
    some false ∈ Q.answers := by
  refine ⟨_, rfl, ⟨0, [1], nodup_singleton 1, ?_, ?_, pairwise_singleton _ _, ?_⟩, by decide⟩
  · intro i hi
    rw [mem_singleton.1 hi]
    exact ⟨_, rfl, .inr rfl⟩
  · intro i a hi hstop
    by_contra hne
    have hne : i ≠ 1 := by simpa using hne
    -- only the write is left, and it is open
    have hwrite : Function.update (fun _ => none) 0
        (some { start := 10, stop := none, isWrite := true, value := 5 }) i = some a := by
      rw [← hi]
      exact ((update_of_ne hne _ _).trans (update_of_ne hne _ _)).symm
    by_cases hzero : i = 0
    · subst hzero
      cases hwrite
      cases hstop
    · rw [update_of_ne hzero] at hwrite
      cases hwrite
  · refine ⟨fun a ha _ => ?_, trivial⟩
    cases ha
    rfl

end Session

end EnocGem5.MemChecker

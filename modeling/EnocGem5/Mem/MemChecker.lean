import Mathlib

/-!
# MemChecker — the tracker of one byte of `mem/mem_checker.cc`

The checker keeps, for one byte, the reads that are outstanding, the reads that have completed
(`readObservations`) and clusters of overlapping writes, and drops what no outstanding read can
need. A read that completes is compared with the values it may have seen (`inExpectedData`).

A function that asserts returns an `Option`. Maps from serials are lists without repeated serials;
the order in which an unordered map is scanned makes no difference to the answer. Debug output is
left out.
-/

namespace EnocGem5.MemChecker

open List

def tickInitial : ℕ := 0

/-- `MaxTick`: the completion of a transaction that is still under way. -/
def tickFuture : ℕ := 2 ^ 64 - 1

def serialInitial : ℕ := 0

def dataInitial : UInt8 := 0

structure Transaction where
  serial : ℕ
  start : ℕ
  complete : ℕ
  data : UInt8 := dataInitial
  deriving DecidableEq, Repr

/-! ## Write clusters -/

structure WriteCluster where
  start : ℕ := tickFuture
  complete : ℕ := tickFuture
  writes : List Transaction := []
  completeMax : ℕ := tickInitial
  numIncomplete : ℕ := 0
  deriving DecidableEq, Repr

namespace WriteCluster

variable (K : WriteCluster)

def isComplete : Bool := K.complete ≠ tickFuture

def startWrite (serial start : ℕ) (data : UInt8) : Option WriteCluster :=
  -- a complete cluster is refused, so that none is ever reopened
  if K.isComplete then none
  else
    let first := if K.start = tickFuture then start else K.start
    if first ≤ start then
      some { K with
        start := first
        numIncomplete := K.numIncomplete + 1
        writes :=
          if K.writes.any (fun t => t.serial = serial) then K.writes
          else K.writes
            ++ [{ serial := serial, start := start, complete := tickFuture, data := data }] }
    else none

def completeWrite (serial complete : ℕ) : Option WriteCluster :=
  match K.writes.find? (fun t => t.serial = serial) with
  | none => some K -- a warning
  | some write =>
    if write.complete = tickFuture then
      let completeMax := if K.completeMax < complete then complete else K.completeMax
      some { K with
        writes := K.writes.map fun t => if t.serial = serial then { t with complete := complete }
          else t
        completeMax := completeMax
        numIncomplete := K.numIncomplete - 1
        complete := if K.numIncomplete = 1 then completeMax else K.complete }
    else none

def abortWrite (serial : ℕ) : WriteCluster :=
  if K.writes.any (fun t => t.serial = serial) then
    let writes := K.writes.filter fun t => t.serial ≠ serial
    { K with
      writes := writes
      numIncomplete := K.numIncomplete - 1
      complete := if K.numIncomplete = 1 ∧ writes ≠ [] then K.completeMax else K.complete }
  else K -- a warning

end WriteCluster

/-! ## The tracker -/

/-- The entry of the initial value: nothing is known about it. -/
def initialTransaction : Transaction :=
  { serial := serialInitial, start := tickInitial, complete := tickInitial, data := dataInitial }

structure ByteTracker where
  outstandingReads : List Transaction := []
  readObservations : List Transaction := [initialTransaction]
  writeClusters : List WriteCluster := []
  lastExpectedData : List UInt8 := []
  deriving DecidableEq, Repr

/-- The last entry that completed before a tick, or else the first one, with the entries after
it. -/
def lastCompletedTransaction {α : Type} (complete : α → ℕ) (before : ℕ) :
    List α → Option (α × List α)
  | [] => none
  | a :: as =>
    if as.any fun b => complete b < before then lastCompletedTransaction complete before as
    else some (a, as)

/-- What the loop of `inExpectedData` has found. -/
structure Scan where
  expected : List UInt8 := []
  overlap : Bool := true
  lastObsValid : Bool
  matched : Bool := false
  deriving DecidableEq, Repr

section Scan

variable (lastObs : Transaction) (start : ℕ) (data : UInt8)

def scanWrite (S : Scan) (write : Transaction) : Scan :=
  if S.matched then S
  else if write.complete < lastObs.start then S
  else if write.data = data then { S with matched := true }
  else if start < write.complete then { S with expected := S.expected ++ [write.data] }
  else
    { S with
      expected := S.expected ++ [write.data]
      overlap := false
      lastObsValid := S.lastObsValid && !decide (lastObs.complete < write.start) }

def scanCluster (K : WriteCluster) (S : Scan) : Scan :=
  if S.overlap && !S.matched then K.writes.foldl (scanWrite lastObs start data) S else S

/-- The clusters are scanned from the last one on. -/
def scanClusters (clusters : List WriteCluster) : Scan :=
  clusters.foldr (scanCluster lastObs start data) { lastObsValid := lastObs.complete ≠ tickInitial }

end Scan

/-- The answer if nothing matched: anything goes if no value is expected. -/
def unmatchedAnswer (lastObs : Transaction) (expected : List UInt8) : Option Bool :=
  if expected = [] then
    if lastObs.complete = tickInitial then some true else none
  else some false

namespace ByteTracker

variable (T : ByteTracker)

def startRead (serial start : ℕ) : ByteTracker :=
  if T.outstandingReads.any fun t => t.serial = serial then T
  else
    -- a map ordered by serials
    let read : Transaction := { serial := serial, start := start, complete := tickFuture }
    { T with
      outstandingReads :=
        T.outstandingReads.takeWhile (fun t => t.serial < serial) ++
          read :: T.outstandingReads.dropWhile (fun t => t.serial < serial) }

/-- The answer, `none` if an assertion fails, and the values that were expected. -/
def inExpectedData (start complete : ℕ) (data : UInt8) : Option Bool × List UInt8 :=
  match lastCompletedTransaction Transaction.complete start T.readObservations with
  | none => (none, [])
  | some (lastObs, _) =>
    let S := scanClusters lastObs start data T.writeClusters
    if S.matched then (some true, S.expected)
    else if S.lastObsValid then
      if start < lastObs.complete then (none, S.expected)
      else if lastObs.data = data then (some true, S.expected)
      else
        let expected := S.expected ++ [lastObs.data]
        (unmatchedAnswer lastObs expected, expected)
    else if !T.writeClusters.isEmpty && S.overlap then
      if (T.writeClusters.head?.any fun K => K.start < complete) &&
          (T.writeClusters.getLast?.any fun K => start < K.complete) then
        (some true, S.expected)
      else (none, S.expected)
    else (unmatchedAnswer lastObs S.expected, S.expected)

def pruneClusters (clusters : List WriteCluster) (before : ℕ) : Option (List WriteCluster) :=
  if clusters.isEmpty then some []
  else (lastCompletedTransaction WriteCluster.complete before clusters).map fun p => p.1 :: p.2

def pruneTransactions (curTick : ℕ) : Option ByteTracker := do
  let before := (T.outstandingReads.head?.map Transaction.start).getD curTick
  let observations ← lastCompletedTransaction Transaction.complete before T.readObservations
  let clusters ← pruneClusters T.writeClusters before
  pure { T with readObservations := observations.1 :: observations.2, writeClusters := clusters }

def completeRead (serial complete : ℕ) (data : UInt8) (curTick : ℕ) :
    Option (Option Bool × ByteTracker) :=
  match T.outstandingReads.find? (fun t => t.serial = serial) with
  | none => some (some true, T) -- a warning
  | some read =>
    let T := { T with outstandingReads := T.outstandingReads.filter fun t => t.serial ≠ serial }
    let (result, expected) := T.inExpectedData read.start complete data
    let observation : Transaction :=
      { serial := serial, start := read.start, complete := complete, data := data }
    let T :=
      { T with
        lastExpectedData := expected
        readObservations := T.readObservations ++ [observation] }
    (T.pruneTransactions curTick).map fun T => (result, T)

/-- The clusters before the most recent incomplete one, and that one. -/
def getIncompleteWriteCluster : List WriteCluster × WriteCluster :=
  match T.writeClusters.getLast? with
  | none => ([], {})
  | some K => if K.isComplete then (T.writeClusters, {}) else (T.writeClusters.dropLast, K)

def startWrite (serial start : ℕ) (data : UInt8) : Option ByteTracker :=
  let (front, K) := T.getIncompleteWriteCluster
  (K.startWrite serial start data).map fun K => { T with writeClusters := front ++ [K] }

def completeWrite (serial complete curTick : ℕ) : Option ByteTracker := do
  let (front, K) := T.getIncompleteWriteCluster
  let K ← K.completeWrite serial complete
  pruneTransactions { T with writeClusters := front ++ [K] } curTick

def abortWrite (serial : ℕ) : ByteTracker :=
  let (front, K) := T.getIncompleteWriteCluster
  { T with writeClusters := front ++ [K.abortWrite serial] }

end ByteTracker

/-! ## What the functions find -/

theorem lastCompletedTransaction_some {α : Type} {complete : α → ℕ} {before : ℕ} {as : List α}
    {a : α} {rest : List α} (h : lastCompletedTransaction complete before as = some (a, rest)) :
    ∃ front, as = front ++ a :: rest ∧ (front = [] ∨ complete a < before) ∧
      ∀ b ∈ rest, before ≤ complete b := by
  fun_induction lastCompletedTransaction complete before as with
  | case1 => cases h
  | case2 b bs hsome ih =>
    rcases ih h with ⟨front, rfl, hfront, hrest⟩
    refine ⟨b :: front, rfl, .inr ?_, hrest⟩
    rcases hfront with rfl | hlt
    · -- one of the entries completed in time, and none after `a` did
      rcases any_eq_true.1 hsome with ⟨c, hc, hlt⟩
      have hlt : complete c < before := by simpa using hlt
      rcases mem_cons.1 hc with rfl | hc
      · exact hlt
      · exact absurd hlt (Nat.not_lt.2 (hrest c hc))
    · exact hlt
  | case3 b bs hnone =>
    cases h
    refine ⟨[], rfl, .inl rfl, ?_⟩
    simpa using hnone

section Scan

variable {lastObs : Transaction} {start : ℕ} {data : UInt8}

/-- A write that the last observation did not come after and that completed before the read
started. -/
def Settled (lastObs : Transaction) (start : ℕ) (t : Transaction) : Prop :=
  lastObs.start ≤ t.complete ∧ t.complete ≤ start

/-- The scan has gone from `S₀` to `S` over the writes `seen`. -/
structure Scanned (lastObs : Transaction) (start : ℕ) (data : UInt8) (S₀ : Scan)
    (seen : List Transaction) (S : Scan) : Prop where
  unmatched : S.matched = false →
    S₀.matched = false ∧ ∀ t ∈ seen, t.complete < lastObs.start ∨ t.data ≠ data
  overlap : S.overlap = false → S₀.overlap = false ∨ ∃ t ∈ seen, Settled lastObs start t
  outdated : S.lastObsValid = false → S₀.lastObsValid = false ∨
    ∃ t ∈ seen, Settled lastObs start t ∧ lastObs.complete < t.start
  valid : S.lastObsValid = true → S₀.lastObsValid = true

theorem scanWrite_spec (S : Scan) (t : Transaction) :
    Scanned lastObs start data S [t] (scanWrite lastObs start data S t) := by
  unfold scanWrite
  split
  case isTrue hmatched =>
    refine ⟨fun hm => ?_, .inl, .inl, id⟩
    rw [hmatched] at hm
    cases hm
  case isFalse hunmatched =>
    have hm : S.matched = false := by simpa using hunmatched
    split
    case isTrue hignored =>
      exact ⟨fun _ => ⟨hm, forall_mem_singleton.2 (.inl hignored)⟩, .inl, .inl, id⟩
    case isFalse hignored =>
      split
      case isTrue => exact ⟨(nomatch ·), .inl, .inl, id⟩
      case isFalse hdata =>
        split
        case isTrue => exact ⟨fun _ => ⟨hm, forall_mem_singleton.2 (.inr hdata)⟩, .inl, .inl, id⟩
        case isFalse hoverlap =>
          have hset : Settled lastObs start t := ⟨Nat.not_lt.1 hignored, Nat.not_lt.1 hoverlap⟩
          refine ⟨fun _ => ⟨hm, forall_mem_singleton.2 (.inr hdata)⟩,
            fun _ => .inr ⟨t, mem_cons_self, hset⟩, fun hv => ?_,
            fun hv => (Bool.and_eq_true_iff.1 hv).1⟩
          -- the observation was invalid already, or this write outdates it
          rcases Bool.and_eq_false_iff.1 hv with hv | hlate
          · exact .inl hv
          · exact .inr ⟨t, mem_cons_self, hset, by simpa using hlate⟩

theorem scanWrites_spec (writes : List Transaction) (S : Scan) :
    Scanned lastObs start data S writes (writes.foldl (scanWrite lastObs start data) S) := by
  induction writes generalizing S with
  | nil => exact ⟨fun hm => ⟨hm, forall_mem_nil _⟩, .inl, .inl, id⟩
  | cons t ts ih =>
    have hfirst : Scanned lastObs start data S [t] (scanWrite lastObs start data S t) :=
      scanWrite_spec S t
    have hrest := ih (scanWrite lastObs start data S t)
    refine ⟨fun hm => ?_, fun ho => ?_, fun hv => ?_, fun hv => hfirst.valid (hrest.valid hv)⟩
    · rcases hrest.unmatched hm with ⟨hm, hts⟩
      rcases hfirst.unmatched hm with ⟨hm, ht⟩
      exact ⟨hm, forall_mem_cons.2 ⟨ht t mem_cons_self, hts⟩⟩
    · rcases hrest.overlap ho with ho | ⟨x, hx, hset⟩
      · rcases hfirst.overlap ho with ho | ⟨x, hx, hset⟩
        · exact .inl ho
        · exact .inr ⟨x, mem_singleton.1 hx ▸ mem_cons_self, hset⟩
      · exact .inr ⟨x, mem_cons_of_mem t hx, hset⟩
    · rcases hrest.outdated hv with hv | ⟨x, hx, hset⟩
      · rcases hfirst.outdated hv with hv | ⟨x, hx, hset⟩
        · exact .inl hv
        · exact .inr ⟨x, mem_singleton.1 hx ▸ mem_cons_self, hset⟩
      · exact .inr ⟨x, mem_cons_of_mem t hx, hset⟩

/-- The loop over the clusters. A cluster is left out only if a later one has a settled write. -/
structure ScannedClusters (lastObs : Transaction) (start : ℕ) (data : UInt8)
    (clusters : List WriteCluster) (S : Scan) : Prop where
  unmatched : S.matched = false → ∀ older K younger, clusters = older ++ K :: younger →
    (∀ K' ∈ younger, ∀ t ∈ K'.writes, ¬ Settled lastObs start t) →
    ∀ t ∈ K.writes, t.complete < lastObs.start ∨ t.data ≠ data
  overlap : S.overlap = false → ∃ K ∈ clusters, ∃ t ∈ K.writes, Settled lastObs start t
  outdated : S.lastObsValid = false → lastObs.complete = tickInitial ∨
    ∃ K ∈ clusters, ∃ t ∈ K.writes, Settled lastObs start t ∧ lastObs.complete < t.start
  valid : S.lastObsValid = true → lastObs.complete ≠ tickInitial

theorem scanClusters_spec (clusters : List WriteCluster) :
    ScannedClusters lastObs start data clusters (scanClusters lastObs start data clusters) := by
  induction clusters with
  | nil =>
    refine ⟨fun _ older K younger hsplit => ?_, (nomatch ·), fun hv => ?_, fun hv => ?_⟩
    · exact absurd hsplit.symm (append_ne_nil_of_right_ne_nil _ (cons_ne_nil K younger))
    · exact .inl (by simpa [scanClusters] using hv)
    · simpa [scanClusters] using hv
  | cons K Ks ih =>
    have hunfold : scanClusters lastObs start data (K :: Ks)
        = scanCluster lastObs start data K (scanClusters lastObs start data Ks) := rfl
    rw [hunfold]
    generalize scanClusters lastObs start data Ks = S at ih
    -- the loop over the writes of `K`, if it is entered
    have hloop : Scanned lastObs start data S
        (if S.overlap && !S.matched then K.writes else [])
        (scanCluster lastObs start data K S) := by
      unfold scanCluster
      split
      · exact scanWrites_spec K.writes S
      · exact scanWrites_spec [] S
    have hmem : ∀ t ∈ (if S.overlap && !S.matched then K.writes else []), t ∈ K.writes := by
      intro t ht
      split at ht
      · exact ht
      · exact absurd ht not_mem_nil
    refine ⟨fun hm older K' younger hsplit hquiet => ?_, fun ho => ?_, fun hv => ?_,
      fun hv => ih.valid (hloop.valid hv)⟩
    · rcases hloop.unmatched hm with ⟨hm, hwrites⟩
      cases older with
      | cons K₀ older =>
        cases hsplit
        exact ih.unmatched hm older K' younger rfl hquiet
      | nil =>
        cases hsplit
        -- without a settled write in the later clusters the loop is entered
        have ho : S.overlap = true := by
          by_contra hno
          rcases ih.overlap (by simpa using hno) with ⟨K', hK', t, ht, hset⟩
          exact hquiet K' hK' t ht hset
        simpa [ho, hm] using hwrites
    · rcases hloop.overlap ho with ho | ⟨t, ht, hset⟩
      · rcases ih.overlap ho with ⟨K', hK', ht⟩
        exact ⟨K', mem_cons_of_mem K hK', ht⟩
      · exact ⟨K, mem_cons_self, t, hmem t ht, hset⟩
    · rcases hloop.outdated hv with hv | ⟨t, ht, hset⟩
      · rcases ih.outdated hv with hinit | ⟨K', hK', ht⟩
        · exact .inl hinit
        · exact .inr ⟨K', mem_cons_of_mem K hK', ht⟩
      · exact .inr ⟨K, mem_cons_self, t, hmem t ht, hset⟩

end Scan

/-- When a read is reported: no scanned write matches, and either the last observation is valid and
different, or a settled write outdates it. -/
theorem ByteTracker.inExpectedData_false {T : ByteTracker} {start complete : ℕ} {data : UInt8}
    (h : (T.inExpectedData start complete data).1 = some false) :
    ∃ lastObs later, lastCompletedTransaction Transaction.complete start T.readObservations
        = some (lastObs, later) ∧
      (∀ older K younger, T.writeClusters = older ++ K :: younger →
        (∀ K' ∈ younger, ∀ t ∈ K'.writes, ¬ Settled lastObs start t) →
        ∀ t ∈ K.writes, t.complete < lastObs.start ∨ t.data ≠ data) ∧
      (lastObs.complete ≠ tickInitial ∧ lastObs.data ≠ data ∨
        (∃ K ∈ T.writeClusters, ∃ t ∈ K.writes, Settled lastObs start t) ∧
          (lastObs.complete = tickInitial ∨ ∃ K ∈ T.writeClusters, ∃ t ∈ K.writes,
            Settled lastObs start t ∧ lastObs.complete < t.start)) := by
  unfold inExpectedData at h
  split at h
  case h_1 => cases h
  case h_2 lastObs later hlast =>
    have hspec : ScannedClusters lastObs start data T.writeClusters
        (scanClusters lastObs start data T.writeClusters) := scanClusters_spec T.writeClusters
    refine ⟨lastObs, later, hlast, ?_⟩
    dsimp only at h
    split at h
    case isTrue => cases h
    case isFalse hm =>
      refine ⟨hspec.unmatched (by simpa using hm), ?_⟩
      split at h
      case isTrue hvalid =>
        left
        refine ⟨hspec.valid hvalid, ?_⟩
        split at h
        case isTrue => cases h
        case isFalse =>
          split at h
          case isTrue => cases h
          case isFalse hdata => exact hdata
      case isFalse hvalid =>
        right
        refine ⟨?_, hspec.outdated (by simpa using hvalid)⟩
        split at h
        case isTrue => split at h <;> cases h
        case isFalse hover =>
          apply hspec.overlap
          by_contra ho
          -- only an empty list of clusters is left, for which no value is expected
          have hempty : T.writeClusters = [] := by simpa [ho] using hover
          rw [hempty] at h
          simp only [scanClusters, foldr_nil, unmatchedAnswer, ↓reduceIte] at h
          split at h <;> cases h

end EnocGem5.MemChecker

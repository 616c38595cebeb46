import EnocGem5.Lib.FirstPart
import EnocGem5.O3.MemDepUnit

/-!
# Barriers — accesses wait for the barriers before them

The invariant ties the two remembered barriers to the barriers in flight (`Remembers`): a flag is
set exactly if a barrier of its kind is in flight, and then the youngest one is remembered. An
access that is blocked is a dependent of a barrier in flight that is at least as young as any that
blocks it (`Inv.waiting`).
-/

namespace EnocGem5.O3.MemDep

open Lib List Option Function Session

/-! ## What the calls do -/

variable {es : ℕ → MemDepEntry} {x barrierSN i n predicted s sn : ℕ} {readyToIssue flag : Bool}
  {rs : List ℕ}

namespace MemDepUnit

variable {U U' : MemDepUnit} {s : ℕ}

/-- What a change of one entry keeps there, it keeps everywhere. -/
theorem update_keeps {γ : Type*} (p : MemDepEntry → γ) {e : MemDepEntry}
    (he : p e = p (es s)) : p (update es s e x) = p (es x) := by
  rw [apply_update fun _ => p, he, update_eq_self]

theorem update_false {hash : ℕ → Bool} : update hash s false x = true ↔ hash x = true ∧ x ≠ s := by
  by_cases hx : x = s
  · subst hx
    simp
  · simp [hx]

theorem moveToReady_spec (h : moveToReady s U = some U') :
    U' = { U with readyList := U.readyList ++ [s] } := by
  rcases ite_none_left_eq_some.1 h with ⟨-, h⟩
  cases h
  rfl

/-- A loop that wakes instructions changes nothing but the ready list and `memDepReady`. -/
theorem wake_foldlM {ds : List ℕ} (h : ds.foldlM wake U = some U') :
    ∃ es rs, U' = { U with entries := es, readyList := rs } ∧
      (∀ x, (es x).inst = (U.entries x).inst ∧ (es x).dependInsts = (U.entries x).dependInsts) ∧
      (∀ x, (es x).memDepReady = true → (U.entries x).memDepReady = true ∨ x ∈ ds) ∧
      ∀ i ∈ rs, i ∈ U.readyList ∨ i ∈ ds := by
  induction ds generalizing U with
  | nil =>
    cases h
    exact ⟨U'.entries, U'.readyList, rfl, fun _ => ⟨rfl, rfl⟩, fun _ hx => .inl hx,
      fun _ hi => .inl hi⟩
  | cons d ds ih =>
    rcases foldlM_cons_some h with ⟨V, hV, hrest⟩
    rcases ih hrest with ⟨es, rs, rfl, hkeep, hmem, hready⟩
    unfold wake at hV
    dsimp only at hV
    split at hV
    case isTrue hwoken =>
      -- `d` is moved to the ready list
      obtain rfl := moveToReady_spec hV
      refine ⟨es, rs, rfl, hkeep, ?_, ?_⟩
      · intro x hx
        exact (hmem x hx).imp_right (mem_cons_of_mem d)
      · intro i hi
        rcases hready i hi with hold | hnew
        · rcases mem_append.1 hold with hold | hd
          · exact .inl hold
          · exact .inr (mem_cons.2 (.inl (mem_singleton.1 hd)))
        · exact .inr (mem_cons_of_mem d hnew)
    case isFalse =>
      cases hV
      refine ⟨es, rs, rfl, ?_, ?_, ?_⟩
      · intro x
        rw [(hkeep x).1, (hkeep x).2]
        exact ⟨update_keeps MemDepEntry.inst rfl, update_keeps MemDepEntry.dependInsts rfl⟩
      · intro x hx
        rcases hmem x hx with hold | hnew
        · by_cases hxd : x = d
          · exact .inr (hxd ▸ mem_cons_self)
          · simp only [modifyEntry, update_of_ne hxd] at hold
            exact .inl hold
        · exact .inr (mem_cons_of_mem d hnew)
      · intro i hi
        exact (hready i hi).imp_right (mem_cons_of_mem d)

theorem wakeDependents_spec (h : U.wakeDependents s = some U') :
    ∃ es rs, U' = { U with entries := es, readyList := rs } ∧
      (∀ x, (es x).inst = (U.entries x).inst) ∧
      (∀ x, ∀ i ∈ (es x).dependInsts, i ∈ (U.entries x).dependInsts) ∧
      (∀ x, (es x).memDepReady = true → (U.entries x).memDepReady = true ∨
        (U.memDepHash s = true ∧ x ∈ (U.entries s).dependInsts)) ∧
      ∀ i ∈ rs, i ∈ U.readyList ∨ (U.memDepHash s = true ∧ i ∈ (U.entries s).dependInsts) := by
  unfold wakeDependents at h
  dsimp only at h
  split at h
  case isTrue =>
    cases h
    exact ⟨U.entries, U.readyList, rfl, fun _ => rfl, fun _ _ hi => hi, fun _ hx => .inl hx,
      fun _ hi => .inl hi⟩
  case isFalse =>
    rcases ite_none_right_eq_some.1 h with ⟨hhash, h⟩
    rcases map_eq_some_iff.1 h with ⟨V, hV, rfl⟩
    rcases wake_foldlM hV with ⟨es, rs, rfl, hkeep, hmem, hready⟩
    refine ⟨update es s { es s with dependInsts := [] }, rs, rfl, ?_, ?_, ?_, ?_⟩
    · intro x
      rw [← (hkeep x).1]
      exact update_keeps MemDepEntry.inst rfl
    · intro x i hi
      by_cases hx : x = s
      · subst hx
        rw [update_self] at hi
        exact absurd hi not_mem_nil
      · rw [update_of_ne hx, (hkeep x).2] at hi
        exact hi
    · intro x hx
      have hold : (es x).memDepReady = true :=
        (update_keeps MemDepEntry.memDepReady (by rfl)).symm.trans hx
      exact (hmem x hold).imp_right fun hd => ⟨hhash, hd⟩
    · intro i hi
      exact (hready i hi).imp_right fun hd => ⟨hhash, hd⟩

theorem setRegsReady_entries (readyToIssue : Bool) (x : ℕ) :
    ((U.setRegsReady readyToIssue s).entries x).inst = (U.entries x).inst ∧
      ((U.setRegsReady readyToIssue s).entries x).memDepReady = (U.entries x).memDepReady ∧
      ((U.setRegsReady readyToIssue s).entries x).dependInsts = (U.entries x).dependInsts := by
  unfold setRegsReady
  split
  · exact ⟨update_keeps MemDepEntry.inst rfl, update_keeps MemDepEntry.memDepReady rfl,
      update_keeps MemDepEntry.dependInsts rfl⟩
  · exact ⟨rfl, rfl, rfl⟩

theorem regsReady_spec (h : U.regsReady s = some U') :
    ∃ es rs, U' = { U with entries := es, readyList := rs } ∧
      (∀ x, (es x).inst = (U.entries x).inst) ∧
      (∀ x, (es x).dependInsts = (U.entries x).dependInsts) ∧
      (∀ x, (es x).memDepReady = (U.entries x).memDepReady) ∧ U.memDepHash s = true ∧
      ∀ i ∈ rs, i ∈ U.readyList ∨ (i = s ∧ (U.entries s).memDepReady = true) := by
  rcases ite_none_right_eq_some.1 h with ⟨hhash, h⟩
  -- setting `regsReady` keeps the other fields of all entries
  have hkeep := setRegsReady_entries (U := U) (s := s) true
  dsimp only at h
  split at h
  case isTrue hset =>
    obtain rfl := moveToReady_spec h
    refine ⟨_, _, rfl, fun x => (hkeep x).1, fun x => (hkeep x).2.2, fun x => (hkeep x).2.1,
      hhash, ?_⟩
    intro i hi
    rcases mem_append.1 hi with hold | hs
    · exact .inl hold
    · exact .inr ⟨mem_singleton.1 hs, (hkeep s).2.1.symm.trans hset⟩
  case isFalse =>
    cases h
    exact ⟨_, _, rfl, fun x => (hkeep x).1, fun x => (hkeep x).2.2, fun x => (hkeep x).2.1, hhash,
      fun i hi => .inl hi⟩

theorem completed_spec (h : U.completed s = some U') : U.memDepHash s = true ∧
    U' = { U with instList := U.instList.erase s, memDepHash := update U.memDepHash s false } := by
  unfold completed at h
  split at h
  case isTrue hhash =>
    cases h
    exact ⟨hhash, rfl⟩
  case isFalse => cases h

def younger (sn s : ℕ) : Bool := sn < s

/-- What `squash` does if `gone` is squashed and `left` is what is left of the list. -/
structure Squashed (gone left : List ℕ) (U U' : MemDepUnit) : Prop where
  entries : ∀ x, (U'.entries x).inst = (U.entries x).inst ∧
    (U'.entries x).dependInsts = (U.entries x).dependInsts ∧
    (U'.entries x).memDepReady = (U.entries x).memDepReady
  readyList : U'.readyList = U.readyList
  loadBarrierSN : U'.loadBarrierSN = U.loadBarrierSN
  storeBarrierSN : U'.storeBarrierSN = U.storeBarrierSN
  loadBarrier : U'.loadBarrier = true ↔ U.loadBarrier = true ∧ U.loadBarrierSN ∉ gone
  storeBarrier : U'.storeBarrier = true ↔ U.storeBarrier = true ∧ U.storeBarrierSN ∉ gone
  memDepHash : ∀ s, U'.memDepHash s = true ↔ U.memDepHash s = true ∧ s ∉ gone
  instList : U'.instList = left

theorem flag_cons {gone : List ℕ} :
    (flag && s != barrierSN) = true ∧ barrierSN ∉ gone ↔ flag = true ∧ barrierSN ∉ s :: gone := by
  rw [Bool.and_eq_true, bne_iff_ne, mem_cons, not_or, and_assoc, ne_comm]

/-- The loop of `squash`: what it takes is the first part of the reversed list. -/
theorem squashFrom_spec {ss : List ℕ} (hlist : U.instList = ss.reverse)
    (h : squashFrom sn ss U = some U') :
    Squashed (ss.takeWhile (younger sn)) (ss.dropWhile (younger sn)).reverse U U' := by
  -- nothing is left to squash
  have hdone : ∀ {V : MemDepUnit} {left : List ℕ}, V.instList = left → Squashed [] left V V :=
      fun hleft =>
    ⟨fun _ => ⟨rfl, rfl, rfl⟩, rfl, rfl, rfl, by simp, by simp, by simp, hleft⟩
  fun_induction squashFrom sn ss U with
  | case1 U =>
    cases h
    exact hdone hlist
  | case2 s ss U hsn _ ih =>
    have hrest := ih rfl h
    have hpos : younger sn s = true := decide_eq_true hsn
    rw [takeWhile_cons_of_pos hpos, dropWhile_cons_of_pos hpos]
    refine { hrest with entries := ?_, loadBarrier := ?_, storeBarrier := ?_, memDepHash := ?_ }
    · intro x
      rw [(hrest.entries x).1, (hrest.entries x).2.1, (hrest.entries x).2.2]
      exact ⟨update_keeps MemDepEntry.inst rfl, update_keeps MemDepEntry.dependInsts rfl,
        update_keeps MemDepEntry.memDepReady rfl⟩
    · exact hrest.loadBarrier.trans flag_cons
    · exact hrest.storeBarrier.trans flag_cons
    · intro x
      rw [hrest.memDepHash, update_false, mem_cons, not_or, and_assoc]
  | case3 => cases h
  | case4 s ss U hsn =>
    cases h
    have hnot : ¬ younger sn s = true := fun hlt => hsn (of_decide_eq_true hlt)
    rw [takeWhile_cons_of_neg hnot, dropWhile_cons_of_neg hnot]
    exact hdone hlist

variable (inst : DynInst)

/-- A flag is cleared if the barrier is of its kind and the one that is remembered. -/
theorem clearBarriers_spec (U : MemDepUnit) : ∃ lb sb,
    U.clearBarriers inst = { U with loadBarrier := lb, storeBarrier := sb } ∧
      (lb = true ↔ U.loadBarrier = true ∧
      (isLoadBarrier inst = true → U.loadBarrierSN ≠ inst.seqNum)) ∧
        (sb = true ↔ U.storeBarrier = true ∧
        (isStoreBarrier inst = true → U.storeBarrierSN ≠ inst.seqNum)) := by
  unfold clearBarriers isLoadBarrier isStoreBarrier
  cases hmem : inst.isMemBarrier with
  | true =>
    rw [if_pos rfl]
    exact ⟨_, _, rfl, by simp, by simp⟩
  | false =>
    rw [if_neg Bool.false_ne_true]
    cases hwrite : inst.isWriteBarrier with
    | true =>
      rw [if_pos rfl]
      exact ⟨_, _, rfl, by simp, by simp⟩
    | false =>
      rw [if_neg Bool.false_ne_true]
      exact ⟨_, _, rfl, by simp, by simp⟩

/-- What `completeBarrier` does. -/
structure Completed (x : ℕ) (U U' : MemDepUnit) : Prop where
  found : U.memDepHash x = true
  inst : ∀ s, (U'.entries s).inst = (U.entries s).inst
  depends : ∀ s, ∀ i ∈ (U'.entries s).dependInsts, i ∈ (U.entries s).dependInsts
  memDepReady : ∀ s, (U'.entries s).memDepReady = true →
    (U.entries s).memDepReady = true ∨ s ∈ (U.entries x).dependInsts
  readyList : ∀ i ∈ U'.readyList, i ∈ U.readyList ∨ i ∈ (U.entries x).dependInsts
  memDepHash : U'.memDepHash = Function.update U.memDepHash x false
  instList : U'.instList = U.instList.erase x
  loadBarrierSN : U'.loadBarrierSN = U.loadBarrierSN
  storeBarrierSN : U'.storeBarrierSN = U.storeBarrierSN
  loadBarrier : U'.loadBarrier = true ↔ U.loadBarrier = true ∧
    (Session.isLoadBarrier (U.entries x).inst = true → U.loadBarrierSN ≠ (U.entries x).inst.seqNum)
  storeBarrier : U'.storeBarrier = true ↔ U.storeBarrier = true ∧
    (Session.isStoreBarrier (U.entries x).inst = true →
    U.storeBarrierSN ≠ (U.entries x).inst.seqNum)

theorem completeBarrier_spec (h : U.completeBarrier x = some U') : Completed x U U' := by
  rcases map_eq_some_iff.1 h with ⟨V, hV, rfl⟩
  rcases bind_eq_some_iff.1 hV with ⟨W, hW, hV⟩
  rcases wakeDependents_spec hW with ⟨es, rs, rfl, hinst, hdepends, hmem, hready⟩
  rcases completed_spec hV with ⟨hhash, rfl⟩
  have hname : (es x).inst = (U.entries x).inst := hinst x
  rw [hname]
  rcases clearBarriers_spec (U.entries x).inst { U with
      entries := es
      readyList := rs
      instList := U.instList.erase x
      memDepHash := update U.memDepHash x false } with ⟨lb, sb, hclear, hlb, hsb⟩
  rw [hclear]
  exact
    { found := hhash
      inst := hinst
      depends := hdepends
      memDepReady := fun s hs => (hmem s hs).imp_right And.right
      readyList := fun i hi => (hready i hi).imp_right And.right
      memDepHash := rfl
      instList := rfl
      loadBarrierSN := rfl
      storeBarrierSN := rfl
      loadBarrier := hlb
      storeBarrier := hsb }

/-- The flags after a barrier has been inserted; the rest is a new entry. -/
theorem insertBarrier_spec (U : MemDepUnit) : ∃ lb lsn sb ssn,
    U.insertBarrier inst = { U.addEntry inst with
      loadBarrier := lb, loadBarrierSN := lsn, storeBarrier := sb, storeBarrierSN := ssn } ∧
    ((isLoadBarrier inst = true ∧ lb = true ∧ lsn = inst.seqNum) ∨
      (isLoadBarrier inst = false ∧ lb = U.loadBarrier ∧ lsn = U.loadBarrierSN)) ∧
    ((isStoreBarrier inst = true ∧ sb = true ∧ ssn = inst.seqNum) ∨
      (isStoreBarrier inst = false ∧ sb = U.storeBarrier ∧ ssn = U.storeBarrierSN)) := by
  unfold insertBarrier isLoadBarrier isStoreBarrier
  cases hmem : inst.isMemBarrier with
  | true =>
    exact ⟨_, _, _, _, rfl, .inl ⟨rfl, rfl, rfl⟩, .inl ⟨rfl, rfl, rfl⟩⟩
  | false =>
    cases hwrite : inst.isWriteBarrier with
    | true => exact ⟨_, _, _, _, rfl, .inr ⟨rfl, rfl, rfl⟩, .inl ⟨rfl, rfl, rfl⟩⟩
    | false => exact ⟨_, _, _, _, rfl, .inr ⟨rfl, rfl, rfl⟩, .inr ⟨rfl, rfl, rfl⟩⟩

/-- An access that finds a producer in the hash becomes its dependent. -/
def Depends (producing : ℕ) (V U' : MemDepUnit) : Prop :=
  ∃ es, U' = { V with entries := es } ∧
    ∀ x, (es x).inst = (V.entries x).inst ∧ (es x).memDepReady = (V.entries x).memDepReady ∧
      ∀ i, i ∈ (es x).dependInsts ↔
        i ∈ (V.entries x).dependInsts ∨ (x = producing ∧ i = inst.seqNum)

/-- One that finds none may be ready at once. -/
def Independent (V U' : MemDepUnit) : Prop :=
  ∃ es rs, U' = { V with entries := es, readyList := rs } ∧
    (∀ x, (es x).inst = (V.entries x).inst ∧ (es x).dependInsts = (V.entries x).dependInsts ∧
      (x ≠ inst.seqNum → (es x).memDepReady = (V.entries x).memDepReady)) ∧
    ∀ i ∈ rs, i ∈ V.readyList ∨ i = inst.seqNum

theorem setRegsReady_eq (readyToIssue : Bool) :
    U.setRegsReady readyToIssue s =
    { U with entries := (U.setRegsReady readyToIssue s).entries } := by
  unfold setRegsReady
  split <;> rfl

theorem insert_spec {inst : DynInst} (h : U.insert inst readyToIssue predicted = some U') :
    ((U.addEntry inst).producingStore inst predicted ≠ 0 ∧
        (U.addEntry inst).memDepHash ((U.addEntry inst).producingStore inst predicted) = true ∧
        Depends inst ((U.addEntry inst).producingStore inst predicted) (U.addEntry inst) U') ∨
      (¬ ((U.addEntry inst).producingStore inst predicted ≠ 0 ∧
        (U.addEntry inst).memDepHash ((U.addEntry inst).producingStore inst predicted) = true) ∧
        Independent inst (U.addEntry inst) U') := by
  unfold insert at h
  dsimp only at h
  generalize U.addEntry inst = V at h ⊢
  generalize V.producingStore inst predicted = producing at h ⊢
  rcases ite_none_right_eq_some.1 h with ⟨-, h⟩
  split at h
  case isTrue hfound =>
    cases h
    refine .inl ⟨hfound.1, hfound.2, ?_⟩
    refine ⟨(modifyEntry producing (fun e =>
      { e with dependInsts := e.dependInsts ++ [inst.seqNum] })
        (V.setRegsReady readyToIssue inst.seqNum)).entries, ?_, ?_⟩
    · rw [setRegsReady_eq]
      rfl
    · intro x
      have hx := setRegsReady_entries (U := V) (s := inst.seqNum) readyToIssue x
      by_cases hxp : x = producing
      · subst hxp
        simp [modifyEntry, hx]
      · simp [modifyEntry, hxp, hx]
  case isFalse hnone =>
    refine .inr ⟨hnone, ?_⟩
    -- `memDepReady` is set in the new entry only
    have hkeep : ∀ x,
        ((V.modifyEntry inst.seqNum fun e => { e with memDepReady := true }).entries x).inst
          = (V.entries x).inst ∧
        ((V.modifyEntry inst.seqNum fun e =>
          { e with memDepReady := true }).entries x).dependInsts = (V.entries x).dependInsts ∧
        (x ≠ inst.seqNum →
          ((V.modifyEntry inst.seqNum fun e =>
            { e with memDepReady := true }).entries x).memDepReady =
                (V.entries x).memDepReady) := by
      intro x
      by_cases hx : x = inst.seqNum
      · subst hx
        simp [modifyEntry]
      · simp [modifyEntry, hx]
    split at h
    case isFalse =>
      cases h
      exact ⟨_, _, rfl, hkeep, fun i hi => .inl hi⟩
    case isTrue =>
      obtain rfl := moveToReady_spec h
      refine ⟨_, _, rfl, ?_, ?_⟩
      · intro x
        have hx := setRegsReady_entries (s := inst.seqNum)
          (U := V.modifyEntry inst.seqNum fun e => { e with memDepReady := true }) true x
        rw [hx.1, hx.2.1, hx.2.2]
        exact hkeep x
      · intro i hi
        exact (mem_append.1 hi).imp_right mem_singleton.1

end MemDepUnit

open MemDepUnit

namespace Session

/-! ## The invariant -/

/-- A flag and its sequence number, for the barriers of a kind. -/
structure Remembers (Q : Session) (kind : DynInst → Bool) (flag : Bool) (barrierSN : ℕ) : Prop where
  set : flag = true → Q.InFlight barrierSN ∧ kind (Q.inst barrierSN) = true ∧
    ∀ b, Q.InFlight b → kind (Q.inst b) = true → b ≤ barrierSN
  clear : flag = false → ∀ b, Q.InFlight b → ¬ kind (Q.inst b) = true

/-- The hash and the list have the same instructions, in program order. -/
structure Listed (Q : Session) : Prop where
  sorted : Q.unit.instList.Pairwise (· < ·)
  hash : ∀ s, Q.unit.memDepHash s = true ↔ s ∈ Q.unit.instList
  bound : ∀ s ∈ Q.unit.instList, 0 < s ∧ s < Q.nextSeqNum
  named : ∀ s, (Q.inst s).seqNum = s

/-- Whatever the unit knows has been inserted. -/
structure Known (Q : Session) : Prop where
  positive : 0 < Q.nextSeqNum
  inserted : ∀ i, Q.inserted i = true → i < Q.nextSeqNum
  barriers : ∀ b, Q.barriers b = true → b < Q.nextSeqNum
  ready : ∀ i ∈ Q.unit.readyList, i < Q.nextSeqNum
  depends : ∀ x, Q.unit.memDepHash x = true → ∀ i ∈ (Q.unit.entries x).dependInsts, i < Q.nextSeqNum

/-- An access that is blocked: it is not ready, and whatever may wake it is a barrier after the one
that blocks it. -/
structure Waits (Q : Session) (b i : ℕ) : Prop where
  ready : i ∉ Q.unit.readyList
  memDepReady : Q.unit.memDepHash i = true → (Q.unit.entries i).memDepReady = false
  depends : ∀ x, Q.unit.memDepHash x = true → i ∈ (Q.unit.entries x).dependInsts →
    Q.barriers x = true ∧ b ≤ x

structure Inv (Q : Session) : Prop where
  listed : Listed Q
  known : Known Q
  load : Remembers Q isLoadBarrier Q.unit.loadBarrier Q.unit.loadBarrierSN
  store : Remembers Q isStoreBarrier Q.unit.storeBarrier Q.unit.storeBarrierSN
  waiting : ∀ i b, Q.inserted i = true → Q.InFlight b → b < i → Orders (Q.inst b) (Q.inst i) →
    Waits Q b i

variable {b : ℕ} {U : MemDepUnit} {Q Q' : Session} {inst : DynInst}

theorem Inv.initial : Inv {} where
  listed :=
    { sorted := List.Pairwise.nil
      hash := fun _ => ⟨nofun, fun h => absurd h not_mem_nil⟩
      bound := forall_mem_nil _
      named := fun _ => rfl }
  known :=
    { positive := Nat.one_pos
      inserted := nofun
      barriers := nofun
      ready := forall_mem_nil _
      depends := nofun }
  load := ⟨nofun, fun _ _ h => absurd h.1 Bool.false_ne_true⟩
  store := ⟨nofun, fun _ _ h => absurd h.1 Bool.false_ne_true⟩
  waiting := nofun

theorem Inv.ordered (h : Inv Q) : Ordered Q := by
  rintro i hready hinserted ⟨b, hb, hlt, horders⟩
  exact (h.waiting i b hinserted hb hlt horders).ready hready

/-- A call that inserts nothing: entries only lose things, and whatever becomes ready is not blocked
afterwards. -/
structure Shrinks (Q Q' : Session) : Prop where
  inserted : Q'.inserted = Q.inserted
  barriers : Q'.barriers = Q.barriers
  nextSeqNum : Q'.nextSeqNum = Q.nextSeqNum
  hash : ∀ s, Q'.unit.memDepHash s = true → Q.unit.memDepHash s = true
  inst : ∀ s, Q'.inst s = Q.inst s
  depends : ∀ x, Q'.unit.memDepHash x = true →
    ∀ i ∈ (Q'.unit.entries x).dependInsts, i ∈ (Q.unit.entries x).dependInsts
  ready : ∀ i ∈ Q'.unit.readyList, i < Q.nextSeqNum ∧
    (i ∈ Q.unit.readyList ∨ (Q.inserted i = true → ¬ Q'.Blocked i))
  memDepReady : ∀ i, Q'.unit.memDepHash i = true → (Q'.unit.entries i).memDepReady = true →
    (Q.unit.entries i).memDepReady = true ∨ (Q.inserted i = true → ¬ Q'.Blocked i)

theorem orders_of_inst (h : Orders (Q'.inst b) (Q'.inst i)) (hinst : ∀ s, Q'.inst s = Q.inst s) :
    Orders (Q.inst b) (Q.inst i) := by
  rwa [hinst, hinst] at h

theorem Shrinks.inFlight (hs : Shrinks Q Q') (hb : Q'.InFlight b) : Q.InFlight b :=
  ⟨hs.barriers ▸ hb.1, hs.hash b hb.2⟩

theorem Shrinks.known (hs : Shrinks Q Q') (h : Known Q) : Known Q' where
  positive := by
    rw [hs.nextSeqNum]
    exact h.positive
  inserted := by
    rw [hs.nextSeqNum, hs.inserted]
    exact h.inserted
  barriers := by
    rw [hs.nextSeqNum, hs.barriers]
    exact h.barriers
  ready := by
    intro i hi
    rw [hs.nextSeqNum]
    exact (hs.ready i hi).1
  depends := by
    intro x hx i hi
    rw [hs.nextSeqNum]
    exact h.depends x (hs.hash x hx) i (hs.depends x hx i hi)

theorem Shrinks.waiting (hs : Shrinks Q Q') (h : Inv Q) :
    ∀ i b, Q'.inserted i = true → Q'.InFlight b → b < i → Orders (Q'.inst b) (Q'.inst i) →
    Waits Q' b i := by
  intro i b hi hb hlt horders
  have hblocked : Q'.Blocked i := ⟨b, hb, hlt, horders⟩
  rw [hs.inserted] at hi
  have hwaits := h.waiting i b hi (hs.inFlight hb) hlt (orders_of_inst horders hs.inst)
  refine ⟨?_, ?_, ?_⟩
  · intro hready
    rcases (hs.ready i hready).2 with hold | hnew
    · exact hwaits.ready hold
    · exact hnew hi hblocked
  · intro hhash
    cases hmem : (Q'.unit.entries i).memDepReady with
    | false => rfl
    | true =>
      rcases hs.memDepReady i hhash hmem with hold | hnew
      · rw [hwaits.memDepReady (hs.hash i hhash)] at hold
        exact hold.symm
      · exact absurd hblocked (hnew hi)
  · intro x hx hmem
    have hold := hwaits.depends x (hs.hash x hx) (hs.depends x hx i hmem)
    rw [hs.barriers]
    exact hold

/-! ## Flags -/

section Flags

variable {kind : DynInst → Bool} {flag flag' : Bool} {barrierSN : ℕ}
  (h : Remembers Q kind flag barrierSN)
include h

theorem Remembers.congr (hin : ∀ b, Q'.InFlight b ↔ Q.InFlight b)
    (hinst : ∀ b, Q.InFlight b → Q'.inst b = Q.inst b) : Remembers Q' kind flag barrierSN where
  set := by
    intro hflag
    rcases h.set hflag with ⟨hsn, hkind, hmax⟩
    refine ⟨(hin _).2 hsn, by rw [hinst _ hsn]; exact hkind, ?_⟩
    intro b hb hb_kind
    have hb := (hin b).1 hb
    rw [hinst b hb] at hb_kind
    exact hmax b hb hb_kind
  clear := by
    intro hflag b hb
    have hb := (hin b).1 hb
    rw [hinst b hb]
    exact h.clear hflag b hb

/-- The barriers of `P` stay in flight. If the youngest one goes, all of its kind do. -/
theorem Remembers.shrink {P : ℕ → Prop}
    (hin : ∀ b, Q'.InFlight b ↔ Q.InFlight b ∧ P b) (hinst : ∀ b, Q'.inst b = Q.inst b)
    (hall : flag = true → ¬ P barrierSN → ∀ b, Q.InFlight b → kind (Q.inst b) = true → ¬ P b)
    (hflag : flag' = true ↔ flag = true ∧ P barrierSN) : Remembers Q' kind flag' barrierSN where
  set := by
    intro hset
    rcases hflag.1 hset with ⟨hflag, hstays⟩
    rcases h.set hflag with ⟨hsn, hkind, hmax⟩
    refine ⟨(hin _).2 ⟨hsn, hstays⟩, by rw [hinst]; exact hkind, ?_⟩
    intro b hb hb_kind
    rw [hinst] at hb_kind
    exact hmax b ((hin b).1 hb).1 hb_kind
  clear := by
    intro hclear b hb hb_kind
    rcases (hin b).1 hb with ⟨hb, hstays⟩
    rw [hinst] at hb_kind
    cases hold : flag with
    | false => exact h.clear hold b hb hb_kind
    | true =>
      have hgone : ¬ P barrierSN := by
        intro hsn
        rw [hflag.2 ⟨hold, hsn⟩] at hclear
        cases hclear
      exact hall hold hgone b hb hb_kind hstays

theorem Remembers.complete
    (hin : ∀ b, Q'.InFlight b ↔ Q.InFlight b ∧ b ≠ x) (hinst : ∀ b, Q'.inst b = Q.inst b)
    (horder : ∀ b, Q.InFlight b → x ≤ b) (hflag : flag' = true ↔ flag = true ∧ barrierSN ≠ x) :
    Remembers Q' kind flag' barrierSN := by
  refine h.shrink hin hinst (fun hset hsn b hb hb_kind hne => hne ?_) hflag
  -- the barrier that completed was the youngest as well as the oldest
  have hle := (h.set hset).2.2 b hb hb_kind
  have hge := horder b hb
  omega

/-- A flag that a barrier in flight has set remembers one that is at least as young. -/
theorem Remembers.youngest (hb : Q.InFlight b)
    (hkind : kind (Q.inst b) = true) : flag = true ∧ Q.InFlight barrierSN ∧ b ≤ barrierSN := by
  cases hflag : flag with
  | false => exact absurd hkind (h.clear hflag b hb)
  | true => exact ⟨rfl, (h.set hflag).1, (h.set hflag).2.2 b hb hkind⟩

/-- A barrier younger than all others is inserted; the flag and its number change if it is of the
kind. -/
theorem Remembers.insertBarrier {barrierSN' : ℕ} (hin : ∀ b, Q'.InFlight b ↔ Q.InFlight b ∨ b = n)
    (hinst : ∀ b, Q.InFlight b → Q'.inst b = Q.inst b) (hlt : ∀ b, Q.InFlight b → b < n)
    (hflag : (kind (Q'.inst n) = true ∧ flag' = true ∧ barrierSN' = n) ∨
      (kind (Q'.inst n) = false ∧ flag' = flag ∧ barrierSN' = barrierSN)) :
    Remembers Q' kind flag' barrierSN' := by
  rcases hflag with ⟨hkind, rfl, rfl⟩ | ⟨hkind, rfl, rfl⟩
  · refine ⟨fun _ => ⟨(hin _).2 (.inr rfl), hkind, ?_⟩, nofun⟩
    intro b hb _
    rcases (hin b).1 hb with hb | rfl
    · exact Nat.le_of_lt (hlt b hb)
    · exact Nat.le_refl _
  · refine ⟨fun hset => ?_, fun hclear b hb hb_kind => ?_⟩
    · rcases h.set hset with ⟨hsn, hsn_kind, hmax⟩
      refine ⟨(hin _).2 (.inl hsn), by rw [hinst _ hsn]; exact hsn_kind, ?_⟩
      intro b hb hb_kind
      rcases (hin b).1 hb with hb | rfl
      · rw [hinst b hb] at hb_kind
        exact hmax b hb hb_kind
      · rw [hkind] at hb_kind
        cases hb_kind
    · rcases (hin b).1 hb with hb | rfl
      · rw [hinst b hb] at hb_kind
        exact h.clear hclear b hb hb_kind
      · rw [hkind] at hb_kind
        cases hb_kind

end Flags

/-! ## Calls that insert nothing -/

theorem Inv.quiet (h : Inv Q) (hinst : ∀ x, (es x).inst = (Q.unit.entries x).inst)
    (hdepends : ∀ x, ∀ i ∈ (es x).dependInsts, i ∈ (Q.unit.entries x).dependInsts)
    (hmem : ∀ i, Q.unit.memDepHash i = true → (es i).memDepReady = true →
      (Q.unit.entries i).memDepReady = true ∨ (Q.inserted i = true → ¬ Q.Blocked i))
    (hready : ∀ i ∈ rs, i ∈ Q.unit.readyList ∨
      (i < Q.nextSeqNum ∧ (Q.inserted i = true → ¬ Q.Blocked i))) :
    Inv { Q with unit := { Q.unit with entries := es, readyList := rs } } := by
  have hblocked : ∀ i, Blocked { Q with unit := { Q.unit with entries := es, readyList := rs } } i →
      Q.Blocked i := by
    rintro i ⟨b, hb, hlt, horders⟩
    exact ⟨b, hb, hlt, orders_of_inst horders hinst⟩
  have hs : Shrinks Q { Q with unit := { Q.unit with entries := es, readyList := rs } } :=
    { inserted := rfl
      barriers := rfl
      nextSeqNum := rfl
      hash := fun _ hx => hx
      inst := hinst
      depends := fun x _ => hdepends x
      ready := by
        intro i hi
        rcases hready i hi with hold | ⟨hlt, hnew⟩
        · exact ⟨h.known.ready i hold, .inl hold⟩
        · exact ⟨hlt, .inr fun hi hb => hnew hi (hblocked i hb)⟩
      memDepReady := fun i hi hes => (hmem i hi hes).imp_right fun hnew hi hb =>
        hnew hi (hblocked i hb) }
  refine ⟨{ h.listed with named := ?_ }, hs.known h.known, ?_, ?_, hs.waiting h⟩
  · intro s
    rw [hs.inst s]
    exact h.listed.named s
  · exact h.load.congr (fun _ => Iff.rfl) fun b _ => hs.inst b
  · exact h.store.congr (fun _ => Iff.rfl) fun b _ => hs.inst b

theorem Inv.regsReady (h : Inv Q) (hU : Q.unit.regsReady s = some U) :
    Inv { Q with unit := U } := by
  rcases regsReady_spec hU with ⟨es, rs, rfl, hinst, hdepends, hmem, hhash, hready⟩
  refine h.quiet hinst (fun x i hi => hdepends x ▸ hi) (fun i _ hi => .inl (hmem i ▸ hi)) ?_
  intro i hi
  rcases hready i hi with hold | ⟨rfl, hmemReady⟩
  · exact .inl hold
  · refine .inr ⟨(h.listed.bound i ((h.listed.hash i).1 hhash)).2, ?_⟩
    -- a blocked access is not marked as ready
    rintro hinserted ⟨b, hb, hlt, horders⟩
    rw [(h.waiting i b hinserted hb hlt horders).memDepReady hhash] at hmemReady
    cases hmemReady

/-- A dependent of an instruction that is no barrier is not blocked. -/
theorem Inv.not_blocked_of_depends (h : Inv Q) (hx : Q.barriers x = false)
    (hhash : Q.unit.memDepHash x = true) (hi : i ∈ (Q.unit.entries x).dependInsts)
    (hinserted : Q.inserted i = true) : ¬ Q.Blocked i := by
  rintro ⟨b, hb, hlt, horders⟩
  have hbarrier := ((h.waiting i b hinserted hb hlt horders).depends x hhash hi).1
  rw [hx] at hbarrier
  cases hbarrier

theorem Inv.wakeDependents (h : Inv Q) (hx : Q.barriers x = false)
    (hU : Q.unit.wakeDependents x = some U) : Inv { Q with unit := U } := by
  rcases wakeDependents_spec hU with ⟨es, rs, rfl, hinst, hdepends, hmem, hready⟩
  refine h.quiet hinst hdepends ?_ ?_
  · intro i _ hi
    exact (hmem i hi).imp_right fun hd => h.not_blocked_of_depends hx hd.1 hd.2
  · intro i hi
    exact (hready i hi).imp_right fun hd =>
      ⟨h.known.depends x hd.1 i hd.2, h.not_blocked_of_depends hx hd.1 hd.2⟩

theorem Listed.remove (h : Listed Q) (hinst : ∀ s, (U.entries s).inst = Q.inst s)
    (hlist : U.instList = Q.unit.instList.erase x)
    (hhash : U.memDepHash = update Q.unit.memDepHash x false) : Listed { Q with unit := U } where
  sorted := by
    rw [hlist]
    exact h.sorted.sublist erase_sublist
  hash := by
    intro s
    have hnodup : Q.unit.instList.Nodup := h.sorted.imp fun hlt => Nat.ne_of_lt hlt
    rw [hlist, hhash, hnodup.mem_erase_iff, ← h.hash s, update_false, and_comm]
  bound := by
    intro s hs
    rw [hlist] at hs
    exact h.bound s (mem_of_mem_erase hs)
  named := by
    intro s
    change (U.entries s).inst.seqNum = s
    rw [hinst s]
    exact h.named s

theorem Inv.completed (h : Inv Q) (hx : Q.barriers x = false)
    (hU : Q.unit.completed x = some U) : Inv { Q with unit := U } := by
  rcases completed_spec hU with ⟨-, rfl⟩
  -- `x` is no barrier: the same barriers are in flight
  have hin : ∀ b, InFlight { Q with unit := { Q.unit with
      instList := Q.unit.instList.erase x
      memDepHash := update Q.unit.memDepHash x false } } b ↔ Q.InFlight b := by
    intro b
    unfold InFlight
    rw [update_false]
    constructor
    · exact fun hb => ⟨hb.1, hb.2.1⟩
    · intro hb
      refine ⟨hb.1, hb.2, ?_⟩
      rintro rfl
      rw [hx] at hb
      cases hb.1
  have hs : Shrinks Q { Q with unit := { Q.unit with
      instList := Q.unit.instList.erase x
      memDepHash := update Q.unit.memDepHash x false } } :=
    { inserted := rfl
      barriers := rfl
      nextSeqNum := rfl
      hash := fun s hs => (update_false.1 hs).1
      inst := fun _ => rfl
      depends := fun _ _ _ hi => hi
      ready := fun i hi => ⟨h.known.ready i hi, .inl hi⟩
      memDepReady := fun _ _ hi => .inl hi }
  exact ⟨h.listed.remove (fun _ => rfl) rfl rfl, hs.known h.known, h.load.congr hin fun _ _ => rfl,
    h.store.congr hin fun _ _ => rfl, hs.waiting h⟩

/-! ## Barriers complete -/

/-- For a flag that is set, the remembered barrier is of its kind. -/
theorem Remembers.flag_iff {kind : DynInst → Bool} {flag' : Bool}
    (h : Remembers Q kind flag barrierSN)
    (hflag : flag' = true ↔ flag = true ∧ (kind (Q.inst x) = true → barrierSN ≠ x)) :
    flag' = true ↔ flag = true ∧ barrierSN ≠ x := by
  rw [hflag]
  refine and_congr_right fun hset => ⟨fun hne heq => ?_, fun hne _ => hne⟩
  have hkind := (h.set hset).2.1
  rw [heq] at hkind
  exact hne hkind heq

theorem Inv.completeBarrier (h : Inv Q) (horder : ∀ b ∈ Q.unit.instList, Q.InFlight b → x ≤ b)
    (hU : Q.unit.completeBarrier x = some U) : Inv { Q with unit := U } := by
  have hc := completeBarrier_spec hU
  have horder : ∀ b, Q.InFlight b → x ≤ b := fun b hb => horder b ((h.listed.hash b).1 hb.2) hb
  have hin : ∀ b, InFlight { Q with unit := U } b ↔ Q.InFlight b ∧ b ≠ x := by
    intro b
    unfold InFlight
    rw [hc.memDepHash, update_false, and_assoc]
  have hinst : ∀ b, inst { Q with unit := U } b = Q.inst b := hc.inst
  -- what depends on `x` waits for no other barrier: one that blocks it would be older than `x`
  have hfree : ∀ i ∈ (Q.unit.entries x).dependInsts, Q.inserted i = true →
      ¬ Blocked { Q with unit := U } i := by
    rintro i hi hinserted ⟨b, hb, hlt, horders⟩
    rcases (hin b).1 hb with ⟨hb, hne⟩
    have hle :=
      ((h.waiting i b hinserted hb hlt (orders_of_inst horders hinst)).depends x hc.found hi).2
    have hge := horder b hb
    omega
  have hs : Shrinks Q { Q with unit := U } :=
    { inserted := rfl
      barriers := rfl
      nextSeqNum := rfl
      hash := by
        intro s hs
        rw [hc.memDepHash] at hs
        exact (update_false.1 hs).1
      inst := hinst
      depends := fun s _ => hc.depends s
      ready := by
        intro i hi
        rcases hc.readyList i hi with hold | hnew
        · exact ⟨h.known.ready i hold, .inl hold⟩
        · exact ⟨h.known.depends x hc.found i hnew, .inr (hfree i hnew)⟩
      memDepReady := fun i _ hi => (hc.memDepReady i hi).imp_right (hfree i) }
  have hlb := hc.loadBarrier
  have hsb := hc.storeBarrier
  rw [show (Q.unit.entries x).inst.seqNum = x from h.listed.named x] at hlb hsb
  refine ⟨h.listed.remove hinst hc.instList hc.memDepHash, hs.known h.known, ?_, ?_, hs.waiting h⟩
  · rw [hc.loadBarrierSN]
    exact h.load.complete hin hinst horder (h.load.flag_iff hlb)
  · rw [hc.storeBarrierSN]
    exact h.store.complete hin hinst horder (h.store.flag_iff hsb)

/-! ## Squashes -/

theorem Listed.squash (h : Listed Q) (sn : ℕ) :
    (∀ s, s ∈ Q.unit.instList.reverse.takeWhile (younger sn) ↔ s ∈ Q.unit.instList ∧ sn < s) ∧
      (Q.unit.instList.reverse.dropWhile (younger sn)).reverse =
        Q.unit.instList.filter fun s => !younger sn s := by
  have hdown : Q.unit.instList.reverse.Pairwise fun a b =>
      younger sn b = true → younger sn a = true := by
    rw [pairwise_reverse]
    refine h.sorted.imp fun hlt hyounger => ?_
    have hyounger := of_decide_eq_true hyounger
    exact decide_eq_true (by omega)
  constructor
  · intro s
    rw [takeWhile_eq_filter hdown, mem_filter, mem_reverse]
    exact and_congr_right fun _ => decide_eq_true_iff
  · rw [dropWhile_eq_filter_not hdown, filter_reverse, reverse_reverse]

theorem Inv.squash (h : Inv Q)
    (hload : Q.SquashesAll isLoadBarrier Q.unit.loadBarrier Q.unit.loadBarrierSN sn)
    (hstore : Q.SquashesAll isStoreBarrier Q.unit.storeBarrier Q.unit.storeBarrierSN sn)
    (hU : Q.unit.squash sn = some U) : Inv { Q with unit := U } := by
  have hsq := squashFrom_spec (reverse_reverse _).symm hU
  rcases h.listed.squash sn with ⟨hgone, hleft⟩
  -- what is in the list stays exactly if it is not younger
  have hstays : ∀ s, Q.unit.memDepHash s = true →
      (s ∉ Q.unit.instList.reverse.takeWhile (younger sn) ↔ s ≤ sn) := by
    intro s hs
    have hmem := (h.listed.hash s).1 hs
    rw [hgone]
    exact ⟨fun hnot => Nat.le_of_not_lt fun hlt => hnot ⟨hmem, hlt⟩,
      fun hle hnot => Nat.not_lt.2 hle hnot.2⟩
  have hhash : ∀ s, U.memDepHash s = true ↔ Q.unit.memDepHash s = true ∧ s ≤ sn :=
    fun s => (hsq.memDepHash s).trans (and_congr_right (hstays s))
  have hin : ∀ b, InFlight { Q with unit := U } b ↔ Q.InFlight b ∧ b ≤ sn := by
    intro b
    unfold InFlight
    rw [hhash, and_assoc]
  have hinst : ∀ b, inst { Q with unit := U } b = Q.inst b := fun b => (hsq.entries b).1
  have hs : Shrinks Q { Q with unit := U } :=
    { inserted := rfl
      barriers := rfl
      nextSeqNum := rfl
      hash := fun s hs => ((hhash s).1 hs).1
      inst := hinst
      depends := fun x _ i hi => (hsq.entries x).2.1 ▸ hi
      ready := by
        intro i hi
        have hold : i ∈ Q.unit.readyList := hsq.readyList ▸ hi
        exact ⟨h.known.ready i hold, .inl hold⟩
      memDepReady := fun i _ hi => .inl ((hsq.entries i).2.2 ▸ hi) }
  have hflag : ∀ {kind flag flag' barrierSN}, Remembers Q kind flag barrierSN →
      (flag' = true ↔ flag = true ∧
        barrierSN ∉ Q.unit.instList.reverse.takeWhile (younger sn)) →
      (flag' = true ↔ flag = true ∧ barrierSN ≤ sn) :=
    fun hrem hiff => hiff.trans (and_congr_right fun hset => hstays _ (hrem.set hset).1.2)
  have hall : ∀ {kind flag barrierSN}, Q.SquashesAll kind flag barrierSN sn → flag = true →
      ¬ barrierSN ≤ sn → ∀ b, Q.InFlight b → kind (Q.inst b) = true → ¬ b ≤ sn :=
    fun hsquash hset hlt b hb hkind => Nat.not_le.2
      (hsquash hset (Nat.lt_of_not_le hlt) b ((h.listed.hash b).1 hb.2) hb hkind)
  refine ⟨⟨?_, ?_, ?_, ?_⟩, hs.known h.known, ?_, ?_, hs.waiting h⟩
  · rw [hsq.instList, hleft]
    exact h.listed.sorted.filter _
  · intro s
    rw [hhash, hsq.instList, hleft, mem_filter, ← h.listed.hash s]
    refine and_congr_right fun _ => ?_
    simp [younger]
  · intro s hs
    rw [hsq.instList, hleft] at hs
    exact h.listed.bound s (mem_of_mem_filter hs)
  · intro s
    rw [hinst s]
    exact h.listed.named s
  · rw [hsq.loadBarrierSN]
    exact h.load.shrink hin hinst (hall hload) (hflag h.load hsq.loadBarrier)
  · rw [hsq.storeBarrierSN]
    exact h.store.shrink hin hinst (hall hstore) (hflag h.store hsq.storeBarrier)

/-! ## Insertions -/

/-- A new instruction is entered into the hash and the list, and is no access that could be
blocked. -/
structure Adds (inst : DynInst) (Q Q' : Session) : Prop where
  fresh : Q.nextSeqNum ≤ inst.seqNum
  entries : Q'.unit.entries =
    Function.update Q.unit.entries inst.seqNum ⟨inst, [], false, false, false⟩
  memDepHash : Q'.unit.memDepHash = Function.update Q.unit.memDepHash inst.seqNum true
  instList : Q'.unit.instList = Q.unit.instList ++ [inst.seqNum]
  readyList : Q'.unit.readyList = Q.unit.readyList
  inserted : Q'.inserted = Q.inserted
  barriers : ∀ b, b ≠ inst.seqNum → Q'.barriers b = Q.barriers b
  nextSeqNum : Q'.nextSeqNum = inst.seqNum + 1

section Added

variable (ha : Adds inst Q Q')
include ha

theorem Adds.inst_of_ne (hs : s ≠ inst.seqNum) : Q'.inst s = Q.inst s := by
  unfold Session.inst
  rw [ha.entries, update_of_ne hs]

theorem Adds.inst_self : Q'.inst inst.seqNum = inst := by
  unfold Session.inst
  rw [ha.entries, update_self]

theorem Adds.hash_of_ne (hs : s ≠ inst.seqNum) : Q'.unit.memDepHash s = Q.unit.memDepHash s := by
  rw [ha.memDepHash, update_of_ne hs]

/-- Barriers that were in flight are older than the new instruction. -/
theorem Adds.lt_of_inFlight (h : Known Q) (hb : Q.InFlight b) : b < inst.seqNum :=
  Nat.lt_of_lt_of_le (h.barriers b hb.1) ha.fresh

theorem Adds.inst_of_inFlight (h : Known Q) (hb : Q.InFlight b) : Q'.inst b = Q.inst b :=
  ha.inst_of_ne (Nat.ne_of_lt (ha.lt_of_inFlight h hb))

theorem Adds.inFlight_of_ne (hb : b ≠ inst.seqNum) : Q'.InFlight b ↔ Q.InFlight b := by
  unfold InFlight
  rw [ha.barriers b hb, ha.hash_of_ne hb]

/-- A new barrier is in flight. -/
theorem Adds.inFlight_barrier (hself : Q'.barriers inst.seqNum = true) (b : ℕ) :
    Q'.InFlight b ↔ Q.InFlight b ∨ b = inst.seqNum := by
  by_cases hb : b = inst.seqNum
  · subst hb
    refine ⟨fun _ => .inr rfl, fun _ => ⟨hself, ?_⟩⟩
    rw [ha.memDepHash, update_self]
  · rw [ha.inFlight_of_ne hb]
    exact ⟨.inl, fun hor => hor.resolve_right hb⟩

theorem Adds.listed (h : Inv Q) : Listed Q' where
  sorted := by
    rw [ha.instList]
    refine pairwise_append.2 ⟨h.listed.sorted, pairwise_singleton _ _, ?_⟩
    intro s hs n hn
    rw [mem_singleton.1 hn]
    exact Nat.lt_of_lt_of_le (h.listed.bound s hs).2 ha.fresh
  hash := by
    intro s
    rw [ha.instList, mem_append, mem_singleton, ← h.listed.hash s]
    by_cases hs : s = inst.seqNum
    · subst hs
      simp [ha.memDepHash]
    · rw [ha.hash_of_ne hs]
      simp [hs]
  bound := by
    have hfresh := ha.fresh
    have hpos := h.known.positive
    rw [ha.nextSeqNum, ha.instList, forall_mem_append, forall_mem_singleton]
    refine ⟨fun s hs => ?_, by omega⟩
    have hbound := h.listed.bound s hs
    omega
  named := by
    intro s
    by_cases hs : s = inst.seqNum
    · subst hs
      rw [ha.inst_self]
    · rw [ha.inst_of_ne hs]
      exact h.listed.named s

/-- What the entries of the new state say about dependents is what the old ones said. -/
theorem Adds.depends (hx : Q'.unit.memDepHash x = true) (hi : i ∈ (Q'.unit.entries x).dependInsts) :
    x ≠ inst.seqNum ∧ Q.unit.memDepHash x = true ∧ i ∈ (Q.unit.entries x).dependInsts := by
  by_cases hxn : x = inst.seqNum
  · subst hxn
    rw [ha.entries, update_self] at hi
    exact absurd hi not_mem_nil
  · rw [ha.entries, update_of_ne hxn] at hi
    rw [ha.hash_of_ne hxn] at hx
    exact ⟨hxn, hx, hi⟩

theorem Adds.known (h : Known Q) : Known Q' := by
  have hle : Q.nextSeqNum ≤ Q'.nextSeqNum := by
    rw [ha.nextSeqNum]
    exact Nat.le_succ_of_le ha.fresh
  refine ⟨Nat.lt_of_lt_of_le h.positive hle, ?_, ?_, ?_, ?_⟩
  · intro i hi
    rw [ha.inserted] at hi
    exact Nat.lt_of_lt_of_le (h.inserted i hi) hle
  · intro b hb
    by_cases hbn : b = inst.seqNum
    · rw [ha.nextSeqNum, hbn]
      exact Nat.lt_succ_self _
    · rw [ha.barriers b hbn] at hb
      exact Nat.lt_of_lt_of_le (h.barriers b hb) hle
  · intro i hi
    rw [ha.readyList] at hi
    exact Nat.lt_of_lt_of_le (h.ready i hi) hle
  · intro x hx i hi
    rcases ha.depends hx hi with ⟨-, hx, hi⟩
    exact Nat.lt_of_lt_of_le (h.depends x hx i hi) hle

theorem Adds.waiting (h : Inv Q) : ∀ i b, Q'.inserted i = true → Q'.InFlight b → b < i →
    Orders (Q'.inst b) (Q'.inst i) → Waits Q' b i := by
  intro i b hi hb hlt horders
  rw [ha.inserted] at hi
  -- an access in the unit is older than the new instruction, and so is what blocks it
  have hin := Nat.ne_of_lt (Nat.lt_of_lt_of_le (h.known.inserted i hi) ha.fresh)
  have hbn : b ≠ inst.seqNum := by
    have hbound := h.known.inserted i hi
    have hfresh := ha.fresh
    omega
  rw [ha.inst_of_ne hbn, ha.inst_of_ne hin] at horders
  have hwaits := h.waiting i b hi ((ha.inFlight_of_ne hbn).1 hb) hlt horders
  refine ⟨?_, ?_, ?_⟩
  · rw [ha.readyList]
    exact hwaits.ready
  · rw [ha.hash_of_ne hin, ha.entries, update_of_ne hin]
    exact hwaits.memDepReady
  · intro x hx hmem
    rcases ha.depends hx hmem with ⟨hxn, hx, hmem⟩
    rw [ha.barriers x hxn]
    exact hwaits.depends x hx hmem

end Added

theorem adds_addEntry (hfresh : Q.nextSeqNum ≤ inst.seqNum) :
    Adds inst Q { Q with unit := Q.unit.addEntry inst, nextSeqNum := inst.seqNum + 1 } :=
  ⟨hfresh, rfl, rfl, rfl, rfl, rfl, fun _ _ => rfl, rfl⟩

/-- An instruction that is no barrier leaves the barriers in flight alone. -/
theorem Inv.inFlight_addEntry (h : Inv Q) (hfresh : Q.nextSeqNum ≤ inst.seqNum) (b : ℕ) :
    InFlight { Q with unit := Q.unit.addEntry inst, nextSeqNum := inst.seqNum + 1 } b ↔
    Q.InFlight b := by
  by_cases hb : b = inst.seqNum
  · have hnot : ¬ Q.barriers b = true := by
      intro hbarrier
      have hlt := h.known.barriers b hbarrier
      omega
    exact ⟨fun hin => absurd hin.1 hnot, fun hin => absurd hin.1 hnot⟩
  · exact (adds_addEntry hfresh).inFlight_of_ne hb

theorem Inv.insertNonSpec (h : Inv Q) (hfresh : Q.nextSeqNum ≤ inst.seqNum) :
    Inv { Q with unit := Q.unit.addEntry inst, nextSeqNum := inst.seqNum + 1 } := by
  have ha := adds_addEntry (Q := Q) hfresh
  have hinst := fun b => ha.inst_of_inFlight (b := b) h.known
  exact ⟨ha.listed h, ha.known h.known, h.load.congr (h.inFlight_addEntry hfresh) hinst,
    h.store.congr (h.inFlight_addEntry hfresh) hinst, ha.waiting h⟩

theorem Inv.insertBarrier (h : Inv Q) (hfresh : Q.nextSeqNum ≤ inst.seqNum) :
    Inv { Q with
      unit := Q.unit.insertBarrier inst
      barriers := update Q.barriers inst.seqNum true
      nextSeqNum := inst.seqNum + 1 } := by
  rcases insertBarrier_spec inst Q.unit with ⟨lb, lsn, sb, ssn, hunit, hload, hstore⟩
  rw [hunit]
  have ha : Adds inst Q { Q with
      unit := { Q.unit.addEntry inst with
        loadBarrier := lb, loadBarrierSN := lsn, storeBarrier := sb, storeBarrierSN := ssn }
      barriers := update Q.barriers inst.seqNum true
      nextSeqNum := inst.seqNum + 1 } :=
    ⟨hfresh, rfl, rfl, rfl, rfl, rfl, fun b hb => update_of_ne hb _ _, rfl⟩
  have hin := ha.inFlight_barrier (update_self ..)
  have hinst := fun b => ha.inst_of_inFlight (b := b) h.known
  have hlt := fun b => ha.lt_of_inFlight (b := b) h.known
  refine ⟨ha.listed h, ha.known h.known, ?_, ?_, ha.waiting h⟩
  · exact h.load.insertBarrier hin hinst hlt (by rw [ha.inst_self]; exact hload)
  · exact h.store.insertBarrier hin hinst hlt (by rw [ha.inst_self]; exact hstore)

/-- A blocked access finds a barrier in its way that is at least as young as any that blocks it. -/
theorem Inv.producingStore (h : Inv Q) (predicted : ℕ)
    (hone : inst.isLoad = true → inst.isStore = true → Q.unit.loadBarrier = true →
      Q.unit.storeBarrier = true → Q.unit.loadBarrierSN = Q.unit.storeBarrierSN)
    (hb : Q.InFlight b) (horders : Orders (Q.inst b) inst) :
    Q.InFlight (Q.unit.producingStore inst predicted) ∧
    b ≤ Q.unit.producingStore inst predicted := by
  -- a barrier of a kind that is in flight has set its flag
  have hload : (Q.inst b).isMemBarrier = true →
      Q.unit.loadBarrier = true ∧ Q.InFlight Q.unit.loadBarrierSN ∧ b ≤ Q.unit.loadBarrierSN :=
    h.load.youngest hb
  have hkind : isStoreBarrier (Q.inst b) = true := by
    unfold isStoreBarrier
    rcases horders with ⟨hmem, -⟩ | ⟨hwrite, -⟩
    · rw [hmem, Bool.true_or]
    · rw [hwrite, Bool.or_true]
  rcases h.store.youngest hb hkind with ⟨hsb, hsn, hle⟩
  unfold MemDepUnit.producingStore
  by_cases hfirst : (inst.isLoad && Q.unit.loadBarrier) = true
  · rw [if_pos hfirst]
    rw [Bool.and_eq_true] at hfirst
    rcases horders with ⟨hmem, -⟩ | ⟨-, his⟩
    · exact (hload hmem).2
    · rw [hone hfirst.1 his hfirst.2 hsb]
      exact ⟨hsn, hle⟩
  · rw [if_neg hfirst]
    -- a load that is no store would have found the load barrier
    have his : inst.isStore = true := by
      rcases horders with ⟨hmem, hil | his⟩ | ⟨-, his⟩
      · rw [hil, (hload hmem).1] at hfirst
        exact absurd rfl hfirst
      · exact his
      · exact his
    have hsecond : (inst.isStore && Q.unit.storeBarrier) = true := by rw [his, hsb, Bool.and_self]
    rw [if_pos hsecond]
    exact ⟨hsn, hle⟩

/-- A new entry becomes an access: other entries stay, and if it is blocked it waits. -/
theorem Inv.access (h : Inv Q) (hn : n < Q.nextSeqNum)
    (hinst : ∀ s, (es s).inst = (Q.unit.entries s).inst)
    (hdepends : ∀ x i, i ∈ (es x).dependInsts → i ≠ n → i ∈ (Q.unit.entries x).dependInsts)
    (hmem : ∀ i, i ≠ n → (es i).memDepReady = (Q.unit.entries i).memDepReady)
    (hready : ∀ i ∈ rs, i ≠ n → i ∈ Q.unit.readyList)
    (hnew : ∀ b, Q.InFlight b → Orders (Q.inst b) (Q.inst n) → n ∉ rs ∧ (es n).memDepReady = false ∧
      ∀ x, Q.unit.memDepHash x = true → n ∈ (es x).dependInsts → Q.barriers x = true ∧ b ≤ x) :
    Inv { Q with
      unit := { Q.unit with entries := es, readyList := rs }
      inserted := update Q.inserted n true } where
  listed := { h.listed with named := fun s =>
    (congrArg DynInst.seqNum (hinst s)).trans (h.listed.named s) }
  known := by
    have hknown : ∀ {i}, (i ≠ n → i < Q.nextSeqNum) → i < Q.nextSeqNum := by
      intro i hi
      by_cases hin : i = n
      · exact hin ▸ hn
      · exact hi hin
    refine ⟨h.known.positive, ?_, h.known.barriers, ?_, ?_⟩
    · exact fun i hi => hknown fun hin => h.known.inserted i ((update_of_ne hin _ _).symm.trans hi)
    · exact fun i hi => hknown fun hin => h.known.ready i (hready i hi hin)
    · exact fun x hx i hi => hknown fun hin => h.known.depends x hx i (hdepends x i hi hin)
  load := h.load.congr (fun _ => Iff.rfl) fun b _ => hinst b
  store := h.store.congr (fun _ => Iff.rfl) fun b _ => hinst b
  waiting := by
    intro i b hi hb hlt horders
    have horders' := orders_of_inst (Q := Q) horders hinst
    by_cases hin : i = n
    · subst hin
      rcases hnew b hb horders' with ⟨hnotReady, hnotMem, hx⟩
      exact ⟨hnotReady, fun _ => hnotMem, hx⟩
    · have hi : Q.inserted i = true := (update_of_ne hin _ _).symm.trans hi
      have hwaits := h.waiting i b hi hb hlt horders'
      refine ⟨fun hr => hwaits.ready (hready i hr hin), fun hhash => ?_,
        fun x hx hd => hwaits.depends x hx (hdepends x i hd hin)⟩
      exact (hmem i hin).trans (hwaits.memDepReady hhash)

theorem Inv.insert (h : Inv Q) (hfresh : Q.nextSeqNum ≤ inst.seqNum)
    (hone : inst.isLoad = true → inst.isStore = true → Q.unit.loadBarrier = true →
      Q.unit.storeBarrier = true → Q.unit.loadBarrierSN = Q.unit.storeBarrierSN)
    (hU : Q.unit.insert inst readyToIssue predicted = some U) :
    Inv { Q with
      unit := U
      inserted := update Q.inserted inst.seqNum true
      nextSeqNum := inst.seqNum + 1 } := by
  have ha := adds_addEntry (Q := Q) hfresh
  have h1 := h.insertNonSpec hfresh
  have hself : ∀ {i}, i < Q.nextSeqNum → i ≠ inst.seqNum := fun hlt heq => by omega
  rcases insert_spec hU with ⟨_, _, es, rfl, hes⟩ | ⟨hnone, es, rs, rfl, hes, hrs⟩
  · -- the access depends on a producer; if it is blocked, that is a barrier
    refine h1.access (Nat.lt_succ_self _) (fun s => (hes s).1) ?_ (fun i _ => (hes i).2.1)
      (fun _ hi _ => hi) ?_
    · intro x i hi hne
      exact (((hes x).2.2 i).1 hi).resolve_right fun hnew => hne hnew.2
    · intro b hb horders
      rw [ha.inst_self] at horders
      have hproducing := h1.producingStore predicted hone hb horders
      refine ⟨fun hready => hself (h.known.ready _ hready) rfl, ?_, ?_⟩
      · rw [(hes _).2.1]
        simp [addEntry]
      · intro x hx hmem
        rcases ((hes x).2.2 _).1 hmem with hold | ⟨rfl, -⟩
        · rcases ha.depends hx hold with ⟨-, hx, hold⟩
          exact absurd rfl (hself (h.known.depends x hx _ hold))
        · exact ⟨hproducing.1.1, hproducing.2⟩
  · -- no producer is found, so the access is not blocked
    refine h1.access (Nat.lt_succ_self _) (fun s => (hes s).1) ?_ (fun i hi => (hes i).2.2 hi) ?_ ?_
    · intro x i hi _
      exact (hes x).2.1 ▸ hi
    · intro i hi hne
      exact (hrs i hi).resolve_right hne
    · intro b hb horders
      rw [ha.inst_self] at horders
      have hproducing := h1.producingStore predicted hone hb horders
      have hpos := (h1.listed.bound _ ((h1.listed.hash _).1 hproducing.1.2)).1
      exact absurd ⟨Nat.ne_of_gt hpos, hproducing.1.2⟩ hnone

/-! ## All sequences of calls -/

theorem Inv.step (h : Inv Q) {call : MemDepCall} (hG : Q.Respects call)
    (hstep : Q.step call = some Q') : Inv Q' := by
  cases call with
  | insert inst readyToIssue predicted =>
    rcases ite_none_right_eq_some.1 hstep with ⟨hfresh, hstep⟩
    rcases map_eq_some_iff.1 hstep with ⟨U, hU, rfl⟩
    exact h.insert hfresh hG hU
  | insertNonSpec inst =>
    rcases ite_none_right_eq_some.1 hstep with ⟨hfresh, hstep⟩
    rcases map_eq_some_iff.1 hstep with ⟨U, hU, rfl⟩
    rcases ite_none_right_eq_some.1 hU with ⟨-, hU⟩
    cases hU
    exact h.insertNonSpec hfresh
  | insertBarrier inst =>
    rcases ite_none_right_eq_some.1 hstep with ⟨hfresh, hstep⟩
    cases hstep
    exact h.insertBarrier hfresh
  | regsReady s =>
    rcases map_eq_some_iff.1 hstep with ⟨U, hU, rfl⟩
    exact h.regsReady hU
  | wakeDependents s =>
    rcases ite_none_left_eq_some.1 hstep with ⟨hs, hstep⟩
    rcases map_eq_some_iff.1 hstep with ⟨U, hU, rfl⟩
    exact h.wakeDependents (Bool.eq_false_iff.2 hs) hU
  | completed s =>
    rcases ite_none_left_eq_some.1 hstep with ⟨hs, hstep⟩
    rcases map_eq_some_iff.1 hstep with ⟨U, hU, rfl⟩
    exact h.completed (Bool.eq_false_iff.2 hs) hU
  | completeBarrier s =>
    rcases ite_none_right_eq_some.1 hstep with ⟨-, hstep⟩
    rcases map_eq_some_iff.1 hstep with ⟨U, hU, rfl⟩
    exact h.completeBarrier hG hU
  | squash sn =>
    rcases map_eq_some_iff.1 hstep with ⟨U, hU, rfl⟩
    exact h.squash hG.1 hG.2 hU

/-- Accesses wait for the barriers before them in every run whose calls respect the remembered
barriers. -/
theorem ordered_of_respects (calls : List MemDepCall)
    (hcalls : Throughout Session.step Session.Respects {} calls) :
    Always Session.step Session.Ordered {} calls :=
  Always.of_throughout (fun _ h => h.ordered) (fun _ _ _ h hG hstep => h.step hG hstep) Inv.initial
    hcalls

/-- Two memory barriers, the second of which is squashed together with what comes after it; a load
that is ready waits for the first. -/
def nestedBarriers : List MemDepCall :=
  [.insertBarrier { seqNum := 1, isMemBarrier := true },
    .insert { seqNum := 2, isLoad := true } true 0,
    .insertBarrier { seqNum := 3, isMemBarrier := true }, .completeBarrier 1, .squash 2]

theorem ordered_of_respects_nestedBarriers :
    Always Session.step Session.Ordered {} nestedBarriers :=
  ordered_of_respects nestedBarriers (by decide)

/-- The second barrier is squashed while the first is in flight, and a load that comes later is
ready at once. -/
def squashedBarrier : List MemDepCall :=
  [.insertBarrier { seqNum := 1, isMemBarrier := true },
    .insertBarrier { seqNum := 2, isMemBarrier := true }, .squash 1,
    .insert { seqNum := 3, isLoad := true } true 0]

theorem squash_forgets_barrier : ∃ Q, squashedBarrier.foldlM Session.step {} = some Q ∧
    3 ∈ Q.unit.readyList ∧ Q.inserted 3 = true ∧ Q.Blocked 3 := by
  refine ⟨_, rfl, ?_, rfl, 1, ?_, ?_, ?_⟩
  · decide
  · decide
  · decide
  · exact .inl ⟨rfl, .inl rfl⟩

end Session

end EnocGem5.O3.MemDep

import EnocGem5.Lib.FirstPart
import EnocGem5.O3.Rename

/-!
# RenamePools — no physical register is lost or duplicated

Each class of registers is a pool (`Rename.pool`) whose log are the history entries of the class.
Renaming, squashing and committing are the operations of pools: every iteration of their loops
touches the pool of one class and leaves the others alone. `renaming_sound` collects what follows
for all sequences of calls.
-/

namespace EnocGem5.O3

open Lib List Function Option

/-! ## Indices -/

namespace RegConfig

variable {M : RegConfig} {c c' : RegClass} {r reg : ℕ}

theorem regIdxToClass_add (h : r < M.numRegs c) :
    M.regIdxToClass (r + M.regBase c) = .ok (c, r) := by
  have hint := M.int_le
  have hfloat := M.float_le
  have hcc := M.cc_le
  have hmisc := M.misc_le
  cases c with
  | IntRegClass =>
    have h : r < M.numIntRegs := h
    change M.regIdxToClass r = _
    unfold regIdxToClass
    rw [if_pos (by omega), if_pos (by omega)]
  | FloatRegClass =>
    have h : r < M.numFloatRegs := h
    change M.regIdxToClass (r + M.fpRegBase) = _
    unfold regIdxToClass
    rw [if_pos (by omega), if_neg (by omega), if_pos (by omega), Nat.add_sub_cancel]
  | CCRegClass =>
    have h : r < M.numCCRegs := h
    change M.regIdxToClass (r + M.ccRegBase) = _
    unfold regIdxToClass
    rw [if_pos (by omega), if_neg (by omega), if_neg (by omega), if_pos (by omega),
      Nat.add_sub_cancel]
  | MiscRegClass => exact absurd h (Nat.not_lt_zero r)

theorem add_miscRegBase (h : M.regIdxToClass reg = .ok (.MiscRegClass, r)) :
    r + M.miscRegBase = reg := by
  unfold regIdxToClass at h
  split_ifs at h <;> cases h
  omega

theorem regIdxToClass_ne_noFreeReg : M.regIdxToClass reg ≠ .error .noFreeReg := by
  unfold regIdxToClass
  split_ifs <;> exact nofun

theorem isPhysReg_iff : M.isPhysReg c reg = true ↔ reg ∈ M.physRegs c := by
  unfold isPhysReg physRegs
  rw [mem_range'_1, Bool.and_eq_true, decide_eq_true_iff, decide_eq_true_iff]

theorem physRegs_nodup : (M.physRegs c).Nodup := nodup_range'

theorem physRegs_disjoint (h : reg ∈ M.physRegs c) (h' : reg ∈ M.physRegs c') : c = c' := by
  rw [physRegs, mem_range'_1] at h h'
  cases c <;> cases c' <;> first
    | rfl
    | (simp only [physBase, numPhysRegs, baseFloatRegIndex, baseCCRegIndex,
      totalNumPhysRegs] at h h'
       omega)

theorem not_isPhysReg (h : reg ∈ M.physRegs c) (hne : c ≠ c') : ¬ M.isPhysReg c' reg = true :=
  fun h' => hne (physRegs_disjoint h (isPhysReg_iff.1 h'))

end RegConfig

namespace Rename

open RegConfig

section Calls

variable {M : RegConfig} {S S' : Rename} {c : RegClass} {r reg : ℕ}

/-! ## What the calls do -/

theorem addReg_of_mem (hc : c ≠ .MiscRegClass) (h : reg ∈ M.physRegs c) :
    S.addReg M reg = .ok (S.pushReg c reg) := by
  unfold addReg
  cases c with
  | IntRegClass => rw [if_pos (isPhysReg_iff.2 h)]
  | FloatRegClass =>
    rw [if_neg (not_isPhysReg h (by decide)), if_pos (isPhysReg_iff.2 h)]
  | CCRegClass =>
    rw [if_neg (not_isPhysReg h (by decide)), if_neg (not_isPhysReg h (by decide)),
      isPhysReg_iff.2 h]
    rfl
  | MiscRegClass => exact absurd rfl hc

theorem setEntry_of_mem {archReg : ℕ} (hclass : M.regIdxToClass archReg = .ok (c, r))
    (hc : c ≠ .MiscRegClass) (hr : r < M.numRegs c) (h : reg ∈ M.physRegs c) :
    S.setEntry M archReg reg = .ok (S.setClassEntry c r reg) := by
  unfold setEntry
  rw [hclass]
  change (if c = .MiscRegClass then _ else _) = _
  rw [if_neg hc, if_pos hr, isPhysReg_iff.2 h]
  rfl

theorem rename_eq (hc : c ≠ .MiscRegClass) : S.rename M c r = (do
    let (info, S) ← S.simpleRename M c r
    check (M.isPhysReg c info.1)
    pure (info, S)) := by
  cases c with
  | MiscRegClass => exact absurd rfl hc
  | _ => rfl

/-- A register of a renamed class: the zero register keeps its place, any other takes the first free
one. -/
theorem rename_cases (hc : c ≠ .MiscRegClass) {info : ℕ × ℕ} (h : S.rename M c r = .ok (info, S')) :
    r < M.numRegs c ∧ ((info = (S.renameMap c r, S.renameMap c r) ∧ S' = S) ∨
      ∃ p rest, S.freeList c = p :: rest ∧ info = (p, S.renameMap c r) ∧
        S' = setClassEntry c r p { S with freeList := update S.freeList c rest }) := by
  rw [rename_eq hc] at h
  rcases bind_ok h with ⟨⟨info', T⟩, hsimple, hrest⟩
  rcases bind_ok hrest with ⟨_, -, hpure⟩
  cases hpure
  unfold simpleRename at hsimple
  split at hsimple
  case isFalse => cases hsimple
  case isTrue hr =>
    refine ⟨hr, ?_⟩
    split at hsimple
    case isTrue =>
      rcases bind_ok hsimple with ⟨_, hzero, hpure⟩
      have hprev := of_decide_eq_true (of_ite_ok hzero)
      cases hpure
      exact .inl ⟨by rw [hprev], rfl⟩
    case isFalse =>
      rcases bind_ok hsimple with ⟨⟨p, U⟩, hget, hpure⟩
      unfold getReg at hget
      split at hget
      case h_1 => cases hget
      case h_2 p' rest hfree =>
        cases hget
        cases hpure
        exact .inr ⟨p, rest, hfree, rfl, rfl⟩

theorem check_ne_noFreeReg {b : Bool} : check b ≠ .error .noFreeReg := by
  unfold check
  split <;> exact nofun

/-- `getReg` is called on an empty list only if the class has no free register. -/
theorem rename_noFreeReg (h : S.rename M c r = .error .noFreeReg) :
    c ≠ .MiscRegClass ∧ S.freeList c = [] := by
  have hc : c ≠ .MiscRegClass := by
    rintro rfl
    cases h
  refine ⟨hc, ?_⟩
  -- an assertion that fails is another error
  have hcheck : ∀ {b : Bool} {α : Type} {a : α},
      (do check b; pure a) ≠ (.error .noFreeReg : Result α) := by
    intro b α a h
    rcases bind_error h with hcheck | ⟨_, -, hpure⟩
    · exact check_ne_noFreeReg hcheck
    · cases hpure
  rw [rename_eq hc] at h
  rcases bind_error h with hsimple | ⟨_, -, hrest⟩
  · unfold simpleRename at hsimple
    split at hsimple
    case isFalse => cases hsimple
    case isTrue =>
      dsimp only at hsimple
      split at hsimple
      case isTrue => exact absurd hsimple hcheck
      case isFalse =>
        rcases bind_error hsimple with hget | ⟨_, -, hpure⟩
        · unfold getReg at hget
          split at hget
          case h_1 hnil => exact hnil
          case h_2 => cases hget
        · cases hpure
  · exact absurd hrest hcheck

end Calls

/-! ## Pools -/

section Pools

variable (M : RegConfig) (c : RegClass)

/-- A history entry of the class, as a change of its map. -/
def entryOf (e : RenameHistory) : Option (LogEntry ℕ ℕ) :=
  match M.regIdxToClass e.archReg with
  | .ok (c', r) => if c' = c then some ⟨r, e.newPhysReg, e.prevPhysReg⟩ else none
  | .error _ => none

def logOf (es : List RenameHistory) : List (LogEntry ℕ ℕ) := es.filterMap (entryOf M c)

/-- The registers of a class; `retired` are the entries of committed instructions. -/
def pool (retired : List RenameHistory) (S : Rename) : Pool ℕ ℕ :=
  ⟨S.freeList c, S.renameMap c, logOf M c S.historyBuffer, logOf M c retired⟩

/-- An entry names a register that is renamed, or one that is not and has been left alone. -/
def Named (e : RenameHistory) : Prop :=
  ∃ c r, M.regIdxToClass e.archReg = .ok (c, r) ∧
    ((c = .MiscRegClass ∧ e.newPhysReg = e.prevPhysReg) ∨ (c ≠ .MiscRegClass ∧ r < M.numRegs c))

structure Pools (start : RegClass → ℕ → ℕ) (retired : List RenameHistory) (S : Rename) : Prop where
  inv : ∀ c, c ≠ .MiscRegClass →
    Pool.Inv (List.range (M.numRegs c)) (M.physRegs c) (start c) (S.pool M c retired)
  named : ∀ e ∈ S.historyBuffer, Named M e

variable {M} {start : RegClass → ℕ → ℕ} {retired : List RenameHistory} {S S' : Rename}
  {c c' : RegClass} {r : ℕ} {e : RenameHistory} {es : List RenameHistory}

theorem logOf_cons_same (h : M.regIdxToClass e.archReg = .ok (c, r)) :
    logOf M c (e :: es) = ⟨r, e.newPhysReg, e.prevPhysReg⟩ :: logOf M c es := by
  apply filterMap_cons_some
  rw [entryOf, h]
  exact if_pos rfl

theorem logOf_cons_other (h : M.regIdxToClass e.archReg = .ok (c', r)) (hne : c ≠ c') :
    logOf M c (e :: es) = logOf M c es := by
  apply filterMap_cons_none
  rw [entryOf, h]
  exact if_neg (Ne.symm hne)

theorem logOf_append (es fs : List RenameHistory) :
    logOf M c (es ++ fs) = logOf M c es ++ logOf M c fs :=
  filterMap_append ..

theorem Pools.of_class {retired' : List RenameHistory} (h : Pools M start retired S)
    (hsame : c ≠ .MiscRegClass →
      Pool.Inv (List.range (M.numRegs c)) (M.physRegs c) (start c) (S'.pool M c retired'))
    (hother : ∀ c', c' ≠ c → S'.pool M c' retired' = S.pool M c' retired)
    (hnamed : ∀ e ∈ S'.historyBuffer, Named M e) : Pools M start retired' S' where
  inv := by
    intro c' hc'
    by_cases hcc' : c' = c
    · subst hcc'
      exact hsame hc'
    · rw [hother c' hcc']
      exact h.inv c' hc'
  named := hnamed

/-! ### Renaming -/

variable {inst : DynInst} {destReg : ℕ}

/-- One destination register: an entry is written, and at most one register of its class is
taken. -/
theorem Pools.renameDestReg (h : Pools M start retired S)
    (hok : S.renameDestReg M inst destReg = .ok S') : Pools M start retired S' ∧
      (∃ e, e.instSeqNum = inst.seqNum ∧ S'.historyBuffer = e :: S.historyBuffer) ∧
      ∀ c, (S.freeList c).length ≤ (S'.freeList c).length + numDestRegs M [destReg] c := by
  rcases bind_ok hok with ⟨⟨c, relDestReg⟩, hclass, hok⟩
  rcases bind_ok hok with ⟨⟨info, T⟩, hrename, hok⟩
  cases hok
  by_cases hc : c = .MiscRegClass
  · subst hc
    -- a misc register: the entry belongs to no pool
    cases hrename
    have hidx : M.regIdxToClass (relDestReg + M.regBase .MiscRegClass) =
        .ok (.MiscRegClass, relDestReg) := by
      change M.regIdxToClass (relDestReg + M.miscRegBase) = _
      rw [add_miscRegBase hclass, hclass]
    refine ⟨h.of_class (c := .MiscRegClass) (fun hc => absurd rfl hc) ?_ ?_, ⟨_, rfl, rfl⟩, ?_⟩
    · intro c' hc'
      unfold pool
      rw [logOf_cons_other hidx hc']
    · refine forall_mem_cons.2 ⟨⟨.MiscRegClass, relDestReg, hidx, .inl ⟨rfl, rfl⟩⟩, h.named⟩
    · intro c'
      exact Nat.le_add_right _ _
  · rw [if_neg hc] at hrename ⊢
    rcases rename_cases hc hrename with ⟨hr, hcases⟩
    have hidx := regIdxToClass_add hr
    have hkey : inst.flatten c relDestReg ∈ List.range (M.numRegs c) := mem_range.2 hr
    have hnamed : ∀ info : ℕ × ℕ, Named M
        ⟨inst.seqNum, inst.flatten c relDestReg + M.regBase c, info.1, info.2⟩ :=
      fun _ => ⟨c, _, hidx, .inr ⟨hc, hr⟩⟩
    rcases hcases with ⟨rfl, rfl⟩ | ⟨p, rest, hfree, rfl, rfl⟩
    · -- the zero register
      refine ⟨h.of_class (c := c) (fun _ => ?_) ?_ (forall_mem_cons.2 ⟨hnamed _, h.named⟩),
        ⟨_, rfl, rfl⟩, fun _ => Nat.le_add_right _ _⟩
      · have hskip := (h.inv c hc).skip (inst.flatten c relDestReg)
        unfold pool
        rw [logOf_cons_same hidx]
        exact hskip
      · intro c' hc'
        unfold pool
        rw [logOf_cons_other hidx hc']
    · refine ⟨h.of_class (c := c) (fun _ => ?_) ?_ (forall_mem_cons.2 ⟨hnamed _, h.named⟩),
        ⟨_, rfl, rfl⟩, ?_⟩
      · have htake := (h.inv c hc).take physRegs_nodup nodup_range hkey hfree
        unfold pool
        rw [logOf_cons_same hidx]
        simpa [setClassEntry, pool] using htake
      · intro c' hc'
        unfold pool
        rw [logOf_cons_other hidx hc']
        simp [setClassEntry, hc']
      · intro c'
        by_cases hc' : c' = c
        · subst hc'
          have hcount : numDestRegs M [destReg] c' = 1 := by
            simp [numDestRegs, hclass, Except.toOption]
          simp [setClassEntry, hfree, hcount]
        · simp [setClassEntry, hc']

theorem renameDestReg_noFreeReg (h : S.renameDestReg M inst destReg = .error .noFreeReg) :
    ∃ c, c ≠ .MiscRegClass ∧ S.freeList c = [] ∧ numDestRegs M [destReg] c = 1 := by
  rcases bind_error h with hclass | ⟨⟨c, _⟩, hclass, h⟩
  · exact absurd hclass regIdxToClass_ne_noFreeReg
  · rcases bind_error h with hrename | ⟨_, -, hpure⟩
    · rcases rename_noFreeReg hrename with ⟨hc, hnil⟩
      exact ⟨c, hc, hnil, by simp [numDestRegs, hclass, Except.toOption]⟩
    · cases hpure

theorem numDestRegs_cons (destReg : ℕ) (destRegs : List ℕ) (c : RegClass) :
    numDestRegs M (destReg :: destRegs) c =
    numDestRegs M [destReg] c + numDestRegs M destRegs c := by
  unfold numDestRegs
  rw [countP_cons, countP_singleton, Nat.add_comm]

theorem le_of_canRename (h : S.canRename M inst = true) (hc : c ≠ .MiscRegClass) :
    numDestRegs M inst.destRegs c ≤ (S.freeList c).length := by
  unfold canRename at h
  simp only [Bool.and_eq_true, decide_eq_true_eq] at h
  cases c with
  | IntRegClass => exact h.1.1
  | FloatRegClass => exact h.1.2
  | CCRegClass => exact h.2
  | MiscRegClass => exact absurd rfl hc

/-- In the loop of `renameDestRegs`: the free registers suffice for the destinations that are left,
and what has been added to the history is stamped with the instruction. -/
structure Renaming (M : RegConfig) (start : RegClass → ℕ → ℕ) (retired : List RenameHistory)
    (inst : DynInst) (S : Rename) (destRegs : List ℕ) (T : Rename) : Prop where
  pools : Pools M start retired T
  history : ∃ added, T.historyBuffer = added ++ S.historyBuffer ∧
    ∀ e ∈ added, e.instSeqNum = inst.seqNum
  room : ∀ c, c ≠ .MiscRegClass → numDestRegs M destRegs c ≤ (T.freeList c).length

theorem Renaming.step {T : Rename} {destRegs : List ℕ}
    (h : Renaming M start retired inst S (destReg :: destRegs) T) :
    Safe (· = Halt.noFreeReg) (Renaming M start retired inst S destRegs)
    (T.renameDestReg M inst destReg) := by
  cases hok : T.renameDestReg M inst destReg with
  | error e =>
    intro he
    rw [he] at hok
    rcases renameDestReg_noFreeReg hok with ⟨c, hc, hnil, hone⟩
    have hlen := h.room c hc
    rw [numDestRegs_cons, hone, hnil, length_nil] at hlen
    omega
  | ok T' =>
    rcases h.pools.renameDestReg hok with ⟨hT', ⟨e, he, hhistory⟩, hfree⟩
    rcases h.history with ⟨added, hadded, hseq⟩
    refine ⟨hT', ⟨e :: added, by rw [hhistory, hadded]; rfl, forall_mem_cons.2 ⟨he, hseq⟩⟩, ?_⟩
    intro c hc
    have hlen := h.room c hc
    rw [numDestRegs_cons] at hlen
    have hfree := hfree c
    omega

variable (h : Pools M start retired S)
include h

/-- An instruction that `canRename` admits finds a free register for each destination. -/
theorem Pools.renameDestRegs (hcan : S.canRename M inst = true) :
    Safe (· = Halt.noFreeReg) (Renaming M start retired inst S []) (S.renameDestRegs M inst) := by
  have hstart : Renaming M start retired inst S inst.destRegs S :=
    ⟨h, ⟨[], rfl, forall_mem_nil _⟩, fun c hc => le_of_canRename hcan hc⟩
  exact Safe.foldlM (fun _ _ _ hT => hT.step) hstart

/-! ### Squashing -/

theorem Pools.undo (hhistory : S.historyBuffer = e :: es) :
    ∃ S', S.undoEntry M e = .ok S' ∧ Pools M start retired { S' with historyBuffer := es } := by
  unfold undoEntry
  have hnamed : ∀ e' ∈ es, Named M e' := fun e' he' => h.named e' (hhistory ▸ mem_cons_of_mem e he')
  rcases h.named e (hhistory ▸ mem_cons_self) with ⟨c, r, hclass, hcase⟩
  have hlog : (S.pool M c retired).log = ⟨r, e.newPhysReg, e.prevPhysReg⟩ :: logOf M c es := by
    change logOf M c S.historyBuffer = _
    rw [hhistory, logOf_cons_same hclass]
  by_cases hchange : e.newPhysReg = e.prevPhysReg
  · rw [if_neg (fun hne => hne hchange)]
    refine ⟨S, rfl, h.of_class (c := c) (fun hc => (h.inv c hc).forget hlog hchange) ?_ hnamed⟩
    · intro c' hc'
      unfold pool
      rw [hhistory, logOf_cons_other hclass hc']
  · rcases hcase with ⟨-, hsame⟩ | ⟨hc, hr⟩
    · exact absurd hsame hchange
    · have hinv := h.inv c hc
      -- the old register is kept, and the new one is in the map
      have hprev : e.prevPhysReg ∈ M.physRegs c := by
        refine hinv.kept_mem ?_
        rw [hlog, kept_cons, if_pos hchange]
        exact mem_cons_self
      have hnew : e.newPhysReg ∈ M.physRegs c := by
        have hmem := hinv.table_mem (mem_range.2 hr)
        rwa [hinv.table_newest hlog] at hmem
      rw [if_pos hchange, setEntry_of_mem hclass hc hr hprev]
      refine ⟨_, addReg_of_mem hc hnew, h.of_class (c := c) (fun _ => ?_) ?_ hnamed⟩
      · have hundo := hinv.undo nodup_range hlog (mem_range.2 hr) hchange
        simpa [pool, pushReg, setClassEntry] using hundo
      · intro c' hc'
        unfold pool
        rw [hhistory, logOf_cons_other hclass hc']
        simp [pushReg, setClassEntry, hc']

/-- A squash succeeds, and takes the entries with larger sequence numbers off the history. -/
theorem Pools.squashFrom (sn : ℕ) (hhistory : S.historyBuffer = es) :
    ∃ S', Rename.squashFrom M sn es S = .ok S' ∧ Pools M start retired S' ∧
      S'.historyBuffer = es.dropWhile fun e => sn < e.instSeqNum := by
  induction es generalizing S with
  | nil => exact ⟨S, rfl, h, hhistory⟩
  | cons e es ih =>
    rw [Rename.squashFrom]
    by_cases hsn : sn < e.instSeqNum
    · rcases h.undo hhistory with ⟨T, hT, hpools⟩
      rcases ih hpools rfl with ⟨S', hS', hpools', hhistory'⟩
      refine ⟨S', ?_, hpools', ?_⟩
      · rw [if_pos hsn, hT]
        exact hS'
      · rw [hhistory', dropWhile_cons_of_pos (by simpa using hsn)]
    · refine ⟨S, if_neg hsn, h, ?_⟩
      rw [hhistory, dropWhile_cons_of_neg (by simpa using hsn)]

/-! ### Committing -/

theorem Pools.retire (hhistory : S.historyBuffer = es ++ [e]) :
    ∃ S', S.freePrev M e = .ok S' ∧
    Pools M start (e :: retired) { S' with historyBuffer := es } := by
  unfold freePrev
  have hnamed : ∀ e' ∈ es, Named M e' := fun e' he' => h.named e' (hhistory ▸ mem_append_left _ he')
  rcases h.named e (hhistory ▸ mem_append_right _ mem_cons_self) with ⟨c, r, hclass, hcase⟩
  have hlog : (S.pool M c retired).log =
      logOf M c es ++ [⟨r, e.newPhysReg, e.prevPhysReg⟩] := by
    change logOf M c S.historyBuffer = _
    rw [hhistory, logOf_append, logOf_cons_same hclass]
    rfl
  have hother : ∀ c', c' ≠ c → logOf M c' S.historyBuffer = logOf M c' es ∧
      logOf M c' (e :: retired) = logOf M c' retired := by
    intro c' hc'
    refine ⟨?_, logOf_cons_other hclass hc'⟩
    rw [hhistory, logOf_append, logOf_cons_other hclass hc']
    exact append_nil _
  by_cases hchange : e.newPhysReg = e.prevPhysReg
  · rw [if_neg (fun hne => hne hchange)]
    refine ⟨S, rfl, h.of_class (c := c) (fun hc => ?_) ?_ hnamed⟩
    · have hretire := (h.inv c hc).retire hlog
      rw [if_neg (fun hne => hne hchange)] at hretire
      unfold pool
      rw [logOf_cons_same hclass]
      exact hretire
    · intro c' hc'
      unfold pool
      rw [(hother c' hc').1, (hother c' hc').2]
  · rcases hcase with ⟨-, hsame⟩ | ⟨hc, _⟩
    · exact absurd hsame hchange
    · have hinv := h.inv c hc
      have hprev : e.prevPhysReg ∈ M.physRegs c := by
        refine hinv.kept_mem ?_
        rw [hlog, kept_append, kept_cons, if_pos hchange]
        exact mem_append_right _ mem_cons_self
      rw [if_pos hchange]
      refine ⟨_, addReg_of_mem hc hprev, h.of_class (c := c) (fun _ => ?_) ?_ hnamed⟩
      · have hretire := hinv.retire hlog
        rw [if_pos hchange] at hretire
        unfold pool
        rw [logOf_cons_same hclass]
        simpa [pool, pushReg] using hretire
      · intro c' hc'
        unfold pool
        rw [(hother c' hc').1, (hother c' hc').2]
        simp [pushReg, hc']

theorem Pools.removeFrom (sn : ℕ) (hhistory : S.historyBuffer = es.reverse) :
    ∃ S' removed, Rename.removeFrom M sn es S = .ok S' ∧ Pools M start (removed ++ retired) S' ∧
      S.historyBuffer = S'.historyBuffer ++ removed ∧ ∀ e ∈ removed, e.instSeqNum ≤ sn := by
  induction es generalizing retired S with
  | nil => exact ⟨S, [], rfl, h, (append_nil _).symm, forall_mem_nil _⟩
  | cons e es ih =>
    rw [reverse_cons] at hhistory
    rw [Rename.removeFrom]
    by_cases hsn : e.instSeqNum ≤ sn
    · rcases h.retire hhistory with ⟨T, hT, hpools⟩
      rcases ih hpools rfl with ⟨S', removed, hS', hpools', hsplit, hle⟩
      have hsplit : es.reverse = S'.historyBuffer ++ removed := hsplit
      refine ⟨S', removed ++ [e], ?_, ?_, ?_, ?_⟩
      · rw [if_pos hsn, hT]
        exact hS'
      · rwa [append_assoc]
      · rw [hhistory, hsplit, append_assoc]
      · exact forall_mem_append.2 ⟨hle, forall_mem_singleton.2 hsn⟩
    · exact ⟨S, [], if_neg hsn, h, (append_nil _).symm, forall_mem_nil _⟩

end Pools

/-! ### The initial state -/

variable {M : RegConfig} {S : Rename} {c : RegClass}

theorem numRegs_le (c : RegClass) : M.numRegs c ≤ M.numPhysRegs c := by
  cases c with
  | IntRegClass => exact M.phys_int_le
  | FloatRegClass => exact M.phys_float_le
  | CCRegClass => exact M.phys_cc_le
  | MiscRegClass => exact Nat.le_refl 0

/-- The registers given out so far and the free ones are all of the class; the other classes
stay. -/
structure Given (M : RegConfig) (c : RegClass) (S : Rename) (n : ℕ) (T : Rename) : Prop where
  partition : (T.freeList c ++ (List.range n).map (T.renameMap c)).Perm (M.physRegs c)
  history : T.historyBuffer = S.historyBuffer
  others : ∀ c', c' ≠ c → T.freeList c' = S.freeList c' ∧ T.renameMap c' = S.renameMap c'

theorem initReg_cons {p ridx : ℕ} {rest : List ℕ} (hfree : S.freeList c = p :: rest)
    (hp : p ∈ M.physRegs c) : initReg M c S ridx =
      .ok (setClassEntry c ridx p { S with freeList := update S.freeList c rest }) := by
  have hget : S.getReg c = .ok (p, { S with freeList := update S.freeList c rest }) := by
    unfold getReg
    rw [hfree]
  unfold initReg
  rw [hget]
  change (check (M.isPhysReg c p) >>= fun _ => pure _) = _
  rw [isPhysReg_iff.2 hp]
  rfl

theorem initClass_loop (hS : S.freeList c = M.physRegs c) (n : ℕ) (hn : n ≤ M.numRegs c) :
    ∃ T, (List.range n).foldlM (initReg M c) S = .ok T ∧ Given M c S n T := by
  induction n with
  | zero =>
    refine ⟨S, rfl, ⟨?_, rfl, fun _ _ => ⟨rfl, rfl⟩⟩⟩
    rw [hS, range_zero, map_nil, append_nil]
  | succ n ih =>
    rcases ih (Nat.le_of_succ_le hn) with ⟨T, hT, hgiven⟩
    -- the list has not been used up
    have hlen := hgiven.partition.length_eq
    simp only [length_append, length_map, length_range, physRegs, length_range'] at hlen
    have hle := numRegs_le (M := M) c
    cases hfree : T.freeList c with
    | nil =>
      rw [hfree, length_nil] at hlen
      omega
    | cons p rest =>
      have hmem : p ∈ M.physRegs c :=
        hgiven.partition.subset (mem_append_left _ (hfree ▸ mem_cons_self))
      refine ⟨setClassEntry c n p { T with freeList := update T.freeList c rest }, ?_, ?_⟩
      · rw [range_succ, foldlM_append, hT]
        change [n].foldlM (initReg M c) T = _
        rw [foldlM_cons, initReg_cons hfree hmem]
        rfl
      · refine ⟨?_, hgiven.history, ?_⟩
        · have hmap : (List.range n).map (update (T.renameMap c) n p) =
              (List.range n).map (T.renameMap c) := by
            refine map_congr_left fun i hi => update_of_ne ?_ _ _
            exact Nat.ne_of_lt (mem_range.1 hi)
          have hpart := hgiven.partition
          rw [hfree] at hpart
          simp only [setClassEntry, update_self, range_succ, map_append, hmap, map_cons, map_nil]
          rw [perm_iff_count] at hpart ⊢
          intro x
          have hx := hpart x
          simp only [count_append, count_cons, count_nil] at hx ⊢
          omega
        · intro c' hc'
          have hother := hgiven.others c' hc'
          simpa [setClassEntry, hc'] using hother

theorem initClass_ok (hS : S.freeList c = M.physRegs c) :
    ∃ T, initClass M S c = .ok T ∧ Given M c S (M.numRegs c) T :=
  initClass_loop hS (M.numRegs c) (Nat.le_refl _)

/-- The constructor succeeds, and every register of a class is free or in the map. -/
theorem init_ok : ∃ S, init M = .ok S ∧ S.historyBuffer = [] ∧ Pools M S.renameMap [] S := by
  rcases initClass_ok (M := M) (S := initFreeList M) (c := .IntRegClass) rfl with ⟨S1, h1, g1⟩
  rcases initClass_ok (M := M) (S := S1) (c := .FloatRegClass) (g1.others _ (by decide)).1 with
    ⟨S2, h2, g2⟩
  have hcc : S2.freeList .CCRegClass = M.physRegs .CCRegClass :=
    (g2.others _ (by decide)).1.trans (g1.others _ (by decide)).1
  rcases initClass_ok (S := S2) hcc with ⟨S3, h3, g3⟩
  have hhistory : S3.historyBuffer = [] := g3.history.trans (g2.history.trans g1.history)
  have hinit : init M = .ok S3 := by
    unfold init
    rw [foldlM_cons, h1]
    change [RegClass.FloatRegClass, .CCRegClass].foldlM (initClass M) S1 = _
    rw [foldlM_cons, h2]
    change [RegClass.CCRegClass].foldlM (initClass M) S2 = _
    rw [foldlM_cons, h3]
    rfl
  have hpart : ∀ c, c ≠ .MiscRegClass →
      (S3.freeList c ++ (List.range (M.numRegs c)).map (S3.renameMap c)).Perm (M.physRegs c) := by
    intro c hc
    cases c with
    | IntRegClass =>
      rw [(g3.others _ (by decide)).1, (g3.others _ (by decide)).2, (g2.others _ (by decide)).1,
        (g2.others _ (by decide)).2]
      exact g1.partition
    | FloatRegClass =>
      rw [(g3.others _ (by decide)).1, (g3.others _ (by decide)).2]
      exact g2.partition
    | CCRegClass => exact g3.partition
    | MiscRegClass => exact absurd rfl hc
  refine ⟨S3, hinit, hhistory, ?_, ?_⟩
  · intro c hc
    refine ⟨?_, ?_, ?_⟩
    · change (S3.freeList c ++ _ ++ kept (logOf M c S3.historyBuffer)).Perm _
      rw [hhistory]
      change (_ ++ []).Perm _
      rw [append_nil]
      exact hpart c hc
    · change S3.renameMap c = replay _ (logOf M c S3.historyBuffer ++ [])
      rw [hhistory]
      rfl
    · change Recorded _ (logOf M c S3.historyBuffer ++ [])
      rw [hhistory]
      trivial
  · rw [hhistory]
    exact forall_mem_nil _

end Rename

/-! ## All sequences of calls -/

inductive RenameCall
  | renameDestRegs (inst : DynInst)
  | doSquash (squashedSeqNum : ℕ)
  | removeFromHistory (instSeqNum : ℕ)

/-- The stage together with all renames of instructions that have not been squashed, newest first,
the smallest sequence number that has not been used, and the last that has been committed. -/
structure RenameSession where
  stage : Rename
  renames : List RenameHistory := []
  nextSeqNum : ℕ := 0
  committed : ℕ := 0

namespace RenameSession

open Rename

variable (M : RegConfig)

/-- Sequence numbers increase, an instruction is renamed if `canRename` admits it, and no committed
instruction is squashed. -/
def step (Q : RenameSession) : RenameCall → Option RenameSession
  | .renameDestRegs inst =>
    if Q.nextSeqNum ≤ inst.seqNum ∧ Q.stage.canRename M inst = true then
      (Q.stage.renameDestRegs M inst).toOption.map fun S =>
        let added := S.historyBuffer.take (S.historyBuffer.length - Q.stage.historyBuffer.length)
        { Q with stage := S, renames := added ++ Q.renames, nextSeqNum := inst.seqNum + 1 }
    else none
  | .doSquash sn =>
    if Q.committed ≤ sn then
      (Q.stage.doSquash M sn).toOption.map fun S =>
        { Q with stage := S, renames := Q.renames.filter fun e => e.instSeqNum ≤ sn }
    else none
  | .removeFromHistory sn =>
    (Q.stage.removeFromHistory M sn).toOption.map fun S =>
      { Q with stage := S, committed := max Q.committed sn }

/-- The old registers of the history entries of a class that are changes. -/
def prevPhysRegs (c : RegClass) (S : Rename) : List ℕ := kept (logOf M c S.historyBuffer)

/-- The free registers, the registers in the map and the old registers in the history are the
physical registers of the class, each once. -/
def Partition (c : RegClass) (S : Rename) : Prop :=
  (S.freeList c ++ (List.range (M.numRegs c)).map (S.renameMap c) ++ prevPhysRegs M c S).Perm
    (M.physRegs c)

/-- The map after renaming the instructions up to `sn`, of those that have not been squashed. -/
def mapUpTo (start : RegClass → ℕ → ℕ) (Q : RenameSession) (sn : ℕ) (c : RegClass) : ℕ → ℕ :=
  replay (start c) (logOf M c (Q.renames.filter fun e => e.instSeqNum ≤ sn))

structure Sound (start : RegClass → ℕ → ℕ) (Q : RenameSession) : Prop where
  partition : ∀ c, c ≠ .MiscRegClass → Partition M c Q.stage
  free : ∀ inst, Q.stage.canRename M inst = true → Q.stage.renameDestRegs M inst ≠ .error .noFreeReg
  squash : ∀ sn, Q.committed ≤ sn → ∃ S, Q.stage.doSquash M sn = .ok S ∧
    ∀ c, c ≠ .MiscRegClass → S.renameMap c = mapUpTo M start Q sn c

/-- The history is the newest part of all renames, and they are ordered by their sequence
numbers. -/
structure Inv (start : RegClass → ℕ → ℕ) (Q : RenameSession) : Prop where
  renames : ∃ retired, Q.renames = Q.stage.historyBuffer ++ retired ∧
    Pools M start retired Q.stage ∧ ∀ e ∈ retired, e.instSeqNum ≤ Q.committed
  ordered : Q.renames.Pairwise fun e e' => e'.instSeqNum ≤ e.instSeqNum
  bounded : ∀ e ∈ Q.renames, e.instSeqNum < Q.nextSeqNum

section Inv

variable {M} {start : RegClass → ℕ → ℕ} {Q Q' : RenameSession}

/-- In an ordered list, the entries above a number are the first ones. -/
theorem dropWhile_above {es : List RenameHistory} (sn : ℕ)
    (h : es.Pairwise fun e e' => e'.instSeqNum ≤ e.instSeqNum) :
    (es.dropWhile fun e => decide (sn < e.instSeqNum)) =
    es.filter fun e => decide (e.instSeqNum ≤ sn) := by
  have hdown : es.Pairwise fun e e' =>
      decide (sn < e'.instSeqNum) = true → decide (sn < e.instSeqNum) = true :=
    h.imp fun hle hlt => decide_eq_true (Nat.lt_of_lt_of_le (of_decide_eq_true hlt) hle)
  rw [dropWhile_eq_filter_not hdown]
  refine filter_congr fun e _ => ?_
  rw [← decide_not, decide_eq_decide]
  exact Nat.not_lt

/-- What a squash does: the renames that are left are those up to `sn`. -/
theorem Inv.doSquash (h : Inv M start Q) {sn : ℕ} (hsn : Q.committed ≤ sn) :
    ∃ S, Q.stage.doSquash M sn = .ok S ∧ ∃ retired,
      (Q.renames.filter fun e => e.instSeqNum ≤ sn) = S.historyBuffer ++ retired ∧
        Pools M start retired S ∧ ∀ e ∈ retired, e.instSeqNum ≤ Q.committed := by
  rcases h.renames with ⟨retired, hrenames, hpools, hretired⟩
  rcases hpools.squashFrom sn rfl with ⟨S, hS, hpools', hhistory⟩
  refine ⟨S, hS, retired, ?_, hpools', hretired⟩
  have hordered := h.ordered
  rw [hrenames] at hordered
  have hkeep : (retired.filter fun e => decide (e.instSeqNum ≤ sn)) = retired :=
    filter_eq_self.2 fun e he => decide_eq_true (Nat.le_trans (hretired e he) hsn)
  rw [hrenames, filter_append, hkeep, hhistory, dropWhile_above sn (pairwise_append.1 hordered).1]

theorem Inv.sound (h : Inv M start Q) : Sound M start Q where
  partition := by
    intro c hc
    rcases h.renames with ⟨retired, -, hpools, -⟩
    exact (hpools.inv c hc).partition
  free := by
    intro inst hcan herror
    rcases h.renames with ⟨retired, -, hpools, -⟩
    exact (hpools.renameDestRegs hcan).not_bad herror rfl
  squash := by
    intro sn hsn
    rcases h.doSquash hsn with ⟨S, hS, retired, hfilter, hpools, -⟩
    refine ⟨S, hS, fun c hc => ?_⟩
    have htable := (hpools.inv c hc).table
    unfold mapUpTo
    rw [hfilter, logOf_append]
    exact htable

theorem Inv.step (h : Inv M start Q) {call : RenameCall} (hstep : Q.step M call = some Q') :
    Inv M start Q' := by
  cases call with
  | renameDestRegs inst =>
    rcases Option.ite_none_right_eq_some.1 hstep with ⟨hguard, hstep⟩
    rcases Option.map_eq_some_iff.1 hstep with ⟨S, hS, rfl⟩
    rcases h.renames with ⟨retired, hrenames, hpools, hretired⟩
    have hrenaming := (hpools.renameDestRegs hguard.2).ok (toOption_some hS)
    rcases hrenaming.history with ⟨added, hadded, hseq⟩
    have htake : S.historyBuffer.take (S.historyBuffer.length - Q.stage.historyBuffer.length) =
        added := by
      rw [hadded, length_append, Nat.add_sub_cancel, take_left]
    rw [htake]
    refine ⟨⟨retired, ?_, hrenaming.pools, hretired⟩, ?_, ?_⟩
    · rw [hadded, append_assoc, ← hrenames]
    · -- the new entries have the largest number, all the same
      refine pairwise_append.2 ⟨?_, h.ordered, ?_⟩
      · refine pairwise_of_forall_mem_list ?_
        intro e he e' he'
        exact Nat.le_of_eq ((hseq e' he').trans (hseq e he).symm)
      · intro e he e' he'
        have hlt := h.bounded e' he'
        rw [hseq e he]
        omega
    · refine forall_mem_append.2 ⟨fun e he => ?_, fun e he => ?_⟩
      · rw [hseq e he]
        exact Nat.lt_succ_self _
      · exact Nat.lt_trans (h.bounded e he) (Nat.lt_succ_of_le hguard.1)
  | doSquash sn =>
    rcases Option.ite_none_right_eq_some.1 hstep with ⟨hsn, hstep⟩
    rcases Option.map_eq_some_iff.1 hstep with ⟨S, hS, rfl⟩
    rcases h.doSquash hsn with ⟨S', hS', retired, hfilter, hpools, hretired⟩
    have hSS' : S = S' := Except.ok.inj ((toOption_some hS).symm.trans hS')
    subst hSS'
    refine ⟨⟨retired, hfilter, hpools, hretired⟩, h.ordered.filter _, ?_⟩
    intro e he
    exact h.bounded e (mem_of_mem_filter he)
  | removeFromHistory sn =>
    rcases Option.map_eq_some_iff.1 hstep with ⟨S, hS, rfl⟩
    rcases h.renames with ⟨retired, hrenames, hpools, hretired⟩
    rcases hpools.removeFrom sn (reverse_reverse _).symm with
      ⟨S', removed, hS', hpools', hsplit, hle⟩
    have hSS' : S = S' := Except.ok.inj ((toOption_some hS).symm.trans hS')
    subst hSS'
    refine { h with renames := ⟨removed ++ retired, ?_, hpools', ?_⟩ }
    · rw [hrenames, hsplit, append_assoc]
    · refine forall_mem_append.2 ⟨fun e he => ?_, fun e he => ?_⟩
      · exact Nat.le_trans (hle e he) (Nat.le_max_right _ _)
      · exact Nat.le_trans (hretired e he) (Nat.le_max_left _ _)

end Inv

/-- From the state after construction on, whatever is renamed, squashed and committed. -/
theorem renaming_sound (M : RegConfig) : ∃ S, Rename.init M = .ok S ∧
    ∀ calls, Always (RenameSession.step M) (Sound M S.renameMap) { stage := S } calls := by
  rcases init_ok (M := M) with ⟨S, hS, hhistory, hpools⟩
  refine ⟨S, hS, fun calls => ?_⟩
  have hinv : Inv M S.renameMap { stage := S } :=
    ⟨⟨[], by rw [hhistory]; rfl, hpools, forall_mem_nil _⟩, List.Pairwise.nil, forall_mem_nil _⟩
  exact Always.of_invariant (fun _ h => h.sound) (fun _ _ _ h hstep => h.step hstep) hinv

end RenameSession

end EnocGem5.O3

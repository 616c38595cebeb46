import Mathlib

/-!
# UndoLog — a table over a pool of values, with a log of its changes

A table maps keys to values that are taken from a pool. A change of the table takes a free value and
writes down which value it replaces; that value is kept until the change is either undone, newest
first, or retired, oldest first. An entry of the log whose two values are equal stands for no change
at all.

The invariant `Pool.Inv` says:

* the free values, the values of the table and the kept ones are all values of the pool, each once;
* the table is what the changes of the log make of the first table, the retired ones first;
* each entry names the value that the table had before its change.
-/

namespace EnocGem5.Lib

open List Function

universe u v

variable {κ : Type u} {V : Type v} {init : κ → V} {p : V}

/-! ## Tables and logs -/

variable {k : κ}

section Tables

variable [DecidableEq κ]

/-- Overwriting one key exchanges one value of a table. -/
theorem exists_rest_of_update {keys : List κ} (hkeys : keys.Nodup) (hk : k ∈ keys) (f : κ → V) :
    ∃ rest, (keys.map f).Perm (f k :: rest) ∧
      ∀ p, (keys.map (update f k p)).Perm (p :: rest) := by
  refine ⟨(keys.erase k).map f, ?_, ?_⟩
  · have hperm := (perm_cons_erase hk).map f
    rwa [map_cons] at hperm
  · intro p
    have hperm := (perm_cons_erase hk).map (update f k p)
    rw [map_cons, update_self] at hperm
    have hrest : (keys.erase k).map (update f k p) = (keys.erase k).map f := by
      refine map_congr_left fun x hx => ?_
      have hne : x ≠ k := fun h => hkeys.not_mem_erase (h ▸ hx)
      exact update_of_ne hne _ _
    rwa [hrest] at hperm

/-- A change of the table. -/
structure LogEntry (κ : Type u) (V : Type v) where
  key : κ
  new : V
  old : V

/-- The table after the changes of a log, whose head is the newest. -/
def replay (init : κ → V) : List (LogEntry κ V) → κ → V
  | [] => init
  | e :: es => Function.update (replay init es) e.key e.new

/-- Every entry names the value before its change. -/
def Recorded (init : κ → V) : List (LogEntry κ V) → Prop
  | [] => True
  | e :: es => e.old = replay init es e.key ∧ Recorded init es

variable {es : List (LogEntry κ V)}

theorem replay_undo {e : LogEntry κ V} (h : Recorded init (e :: es)) :
    update (replay init (e :: es)) e.key e.old = replay init es := by
  rw [replay, update_idem, h.1, update_eq_self]

theorem replay_unchanged {e : LogEntry κ V} (h : Recorded init (e :: es)) (hsame : e.new = e.old) :
    replay init (e :: es) = replay init es := by
  rw [replay, hsame, h.1, update_eq_self]

end Tables

section Kept

variable [DecidableEq V]

/-- The values that are kept for the entries of a log. -/
def kept (log : List (LogEntry κ V)) : List V :=
  (log.filter fun e => e.new ≠ e.old).map LogEntry.old

theorem kept_cons (e : LogEntry κ V) (es : List (LogEntry κ V)) :
    kept (e :: es) = if e.new ≠ e.old then e.old :: kept es else kept es := by
  unfold kept
  by_cases h : e.new = e.old
  · simp [h]
  · simp [h]

theorem kept_append (es fs : List (LogEntry κ V)) : kept (es ++ fs) = kept es ++ kept fs := by
  unfold kept
  rw [filter_append, map_append]

end Kept

/-! ## Pools -/

/-- `log` holds the changes that may still be undone, `retired` those that may not. -/
structure Pool (κ : Type u) (V : Type v) where
  free : List V
  table : κ → V
  log : List (LogEntry κ V)
  retired : List (LogEntry κ V)

namespace Pool

structure Inv [DecidableEq κ] [DecidableEq V] (keys : List κ) (all : List V) (init : κ → V)
    (P : Pool κ V) : Prop where
  partition : (P.free ++ keys.map P.table ++ kept P.log).Perm all
  table : P.table = replay init (P.log ++ P.retired)
  recorded : Recorded init (P.log ++ P.retired)

variable [DecidableEq κ] [DecidableEq V] {keys : List κ} {all : List V} {init : κ → V}
  {P : Pool κ V}

section Pools

variable (hP : Inv keys all init P)
include hP

theorem Inv.table_mem (hk : k ∈ keys) : P.table k ∈ all :=
  hP.partition.subset (mem_append_left _ (mem_append_right _ (mem_map_of_mem hk)))

theorem Inv.kept_mem (hp : p ∈ kept P.log) : p ∈ all :=
  hP.partition.subset (mem_append_right _ hp)

theorem Inv.free_ne (hall : all.Nodup) (hk : k ∈ keys) (hp : p ∈ P.free) : p ≠ P.table k := by
  have hnodup := hP.partition.nodup_iff.2 hall
  have hdisjoint := (nodup_append.1 (nodup_append.1 hnodup).1).2.2
  exact hdisjoint p hp (P.table k) (mem_map_of_mem hk)

theorem Inv.take (hall : all.Nodup) (hkeys : keys.Nodup) (hk : k ∈ keys)
    {rest : List V} (hfree : P.free = p :: rest) :
    Inv keys all init
      ⟨rest, update P.table k p, ⟨k, p, P.table k⟩ :: P.log, P.retired⟩ where
  partition := by
    have hne : p ≠ P.table k := hP.free_ne hall hk (hfree ▸ mem_cons_self)
    rcases exists_rest_of_update hkeys hk P.table with ⟨others, hold, hnew⟩
    rw [kept_cons, if_pos hne]
    have hpart := hP.partition
    rw [hfree] at hpart
    rw [perm_iff_count] at hpart ⊢
    intro x
    -- `p` moves from the free values to the table, and the old value of `k` to the kept ones
    have hx := hpart x
    have hx_old := hold.count_eq x
    have hx_new := (hnew p).count_eq x
    simp only [count_append, count_cons] at hx hx_old hx_new ⊢
    omega
  table := by
    rw [hP.table]
    rfl
  recorded := ⟨congrFun hP.table k, hP.recorded⟩

/-- A change that is none is written into the log. -/
theorem Inv.skip (k : κ) :
    Inv keys all init { P with log := ⟨k, P.table k, P.table k⟩ :: P.log } where
  partition := by
    rw [kept_cons, if_neg (fun h => h rfl)]
    exact hP.partition
  table := by
    have hrec : Recorded init (⟨k, P.table k, P.table k⟩ :: (P.log ++ P.retired)) :=
      ⟨congrFun hP.table k, hP.recorded⟩
    exact hP.table.trans (replay_unchanged hrec rfl).symm
  recorded := ⟨congrFun hP.table k, hP.recorded⟩

end Pools

variable {e : LogEntry κ V} {es : List (LogEntry κ V)}

variable (hP : Inv keys all init P)
include hP

theorem Inv.table_newest (hlog : P.log = e :: es) : P.table e.key = e.new := by
  rw [hP.table, hlog, cons_append, replay, update_self]

theorem Inv.undo (hkeys : keys.Nodup) (hlog : P.log = e :: es)
    (hk : e.key ∈ keys) (hchange : e.new ≠ e.old) :
    Inv keys all init ⟨P.free ++ [e.new], update P.table e.key e.old, es, P.retired⟩ where
  partition := by
    rcases exists_rest_of_update hkeys hk P.table with ⟨others, hold, hnew⟩
    have hpart := hP.partition
    rw [hlog, kept_cons, if_pos hchange] at hpart
    rw [hP.table_newest hlog] at hold
    rw [perm_iff_count] at hpart ⊢
    intro x
    have hx := hpart x
    have hx_old := hold.count_eq x
    have hx_new := (hnew e.old).count_eq x
    simp only [count_append, count_cons, count_nil] at hx hx_old hx_new ⊢
    omega
  table := by
    have hrec := hP.recorded
    rw [hlog] at hrec
    rw [hP.table, hlog]
    exact replay_undo hrec
  recorded := by
    have hrec := hP.recorded
    rw [hlog] at hrec
    exact hrec.2

theorem Inv.forget (hlog : P.log = e :: es) (hsame : e.new = e.old) :
    Inv keys all init { P with log := es } where
  partition := by
    have hpart := hP.partition
    rwa [hlog, kept_cons, if_neg (fun h => h hsame)] at hpart
  table := by
    have hrec := hP.recorded
    rw [hlog] at hrec
    exact hP.table.trans ((congrArg (fun l => replay init (l ++ P.retired)) hlog).trans
      (replay_unchanged hrec hsame))
  recorded := by
    have hrec := hP.recorded
    rw [hlog] at hrec
    exact hrec.2

theorem Inv.retire (hlog : P.log = es ++ [e]) :
    Inv keys all init
      ⟨if e.new ≠ e.old then P.free ++ [e.old] else P.free, P.table, es, e :: P.retired⟩ where
  partition := by
    have hpart := hP.partition
    rw [hlog, kept_append, kept_cons] at hpart
    rw [perm_iff_count] at hpart ⊢
    intro x
    have hx := hpart x
    by_cases hsame : e.new = e.old
    · simpa [hsame, kept] using hx
    · simp only [hsame, ne_eq, not_false_eq_true, ↓reduceIte, count_append, count_cons,
        count_nil] at hx ⊢
      have hnil : (kept ([] : List (LogEntry κ V))).count x = 0 := rfl
      omega
  table := by
    rw [hP.table, hlog, append_assoc]
    rfl
  recorded := by
    have hrec := hP.recorded
    rwa [hlog, append_assoc] at hrec

end Pool

end EnocGem5.Lib

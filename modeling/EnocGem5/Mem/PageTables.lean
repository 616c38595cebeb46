import EnocGem5.Mem.MultiLevelPageTable

/-!
# PageTables — the two page tables side by side

The lookups of both tables answer from the table behind the cache, in all runs in which `remap`
moves pages to free ones and, for the architectural table, finds entries that survive it. Run in
lockstep the two tables agree as long as no page is moved.

`remap` of the architectural table shifts a page number as if it were an address: the entry of the
new page has lost its lower 12 bits, and what is put into the cache is the page number itself.
-/

namespace EnocGem5.Mem

open Lib Option

/-! ## Calls -/

/-- The addresses are canonical, the physical pages fit into entries, and no page is moved. -/
def PageCall.Unmoved : PageCall → Prop
  | .map vaddr paddr size _ =>
    ∀ k < numPages 12 size, Canonical (nthPage 12 vaddr k) ∧
      MultiLevelPageTable.IsFrame (nthPage 12 paddr k)
  | .remap _ size _ => size ≤ 0
  | .unmap vaddr size => ∀ k < numPages 12 size, Canonical (nthPage 12 vaddr k)
  | .lookup vaddr => Canonical (pageAlign 12 vaddr)

instance (call : PageCall) : Decidable call.Unmoved :=
  match call with
  | .map _ _ size _ | .unmap _ size => inferInstanceAs (Decidable (∀ k < numPages 12 size, _))
  | .remap _ size _ => inferInstanceAs (Decidable (size ≤ 0))
  | .lookup _ => inferInstanceAs (Decidable (_ ∨ _))

theorem numPages_nonpos {size : ℤ} (h : size ≤ 0) : numPages 12 size = 0 := by
  unfold numPages
  omega

/-! ## Lookups answer from the table -/

/-- Runs of either table from its initial state. -/
theorem lookup_from_table (pageShift : ℕ) (A : Allocator) (calls : List PageCall) :
    (Throughout (FuncPageTable.step pageShift) (FuncPageTable.MovesToUnmapped pageShift) {} calls →
      Always (FuncPageTable.step pageShift) (FuncPageTable.Coherent pageShift) {} calls) ∧
    (Throughout (MultiLevelPageTable.step A) (MultiLevelPageTable.Fitting A) {} calls →
      Always (MultiLevelPageTable.step A) (MultiLevelPageTable.Coherent A) {} calls) := by
  constructor
  · intro hG
    exact Always.of_throughout (fun _ hP => FuncPageTable.Cached.coherent hP)
      (fun _ _ _ hP hcall hstep => FuncPageTable.Cached.step hP hcall hstep)
      FuncPageTable.Cached.initial hG
  · intro hG
    exact Always.of_throughout (fun _ hP => hP.coherent)
      (fun _ _ _ hP hcall hstep => hP.step hcall hstep) MultiLevelPageTable.Cached.initial hG

/-- An allocator with enough pages for one path of the tree. -/
def smallAllocator : Allocator where
  basePage := 1
  pages := [2, 3, 4]
  nodup := by decide
  ne_zero := by decide
  lt := by decide

/-- Two pages are mapped, the second is looked up and the first unmapped. -/
def mapAndUnmap : List PageCall :=
  [.map 0x1000 0x5000 0x2000 {}, .lookup 0x2008, .unmap 0x1000 0x1000]

def mapAndRemap : List PageCall := [.map 0x1000 0x5000 0x1000 {}, .remap 0x1000 0x1000 0x2000]

/-- A page is moved onto one that is mapped, and unmapped there. -/
def remapOnto : List PageCall :=
  [.map 0x1000 0x5000 0x2000 {}, .remap 0x1000 0x1000 0x2000, .unmap 0x2000 0x1000]

theorem unmoved_mapAndUnmap : ∀ call ∈ mapAndUnmap, call.Unmoved := by
  decide

/-- A page whose page number survives the shift is moved to a free one, looked up and unmapped
there. -/
def mapAndMove : List PageCall :=
  [.map 0x1000 0x1000000 0x1000 {}, .remap 0x1000 0x1000 0x2000, .lookup 0x2008,
    .unmap 0x2000 0x1000]

theorem lookup_from_table_mapAndMove :
    Always (FuncPageTable.step 12) (FuncPageTable.Coherent 12) {} mapAndMove ∧
      Always (MultiLevelPageTable.step smallAllocator)
      (MultiLevelPageTable.Coherent smallAllocator) {}
        mapAndMove :=
  ⟨(lookup_from_table 12 smallAllocator mapAndMove).1 (by decide),
    (lookup_from_table 12 smallAllocator mapAndMove).2 (by decide)⟩

/-- After a page has been moved onto a mapped one and unmapped, the functional table still has the
old translation of that page in its cache; the architectural table loses a page that is moved, but
finds its page number in the cache. -/
theorem lookup_stale :
    ((remapOnto.foldlM (FuncPageTable.step 12) {}).map fun P =>
        ((P.lookup 12 0x2000).2.map TlbEntry.translation, P.table 0x2000)) =
      some (some ⟨0x6000, true, false⟩, none) ∧
    ((mapAndRemap.foldlM (MultiLevelPageTable.step smallAllocator) {}).map fun P =>
        ((P.lookup smallAllocator 0x2000).2.map TlbEntry.translation,
          P.table smallAllocator 0x2000)) =
      some (some ⟨5, true, false⟩, none) := by
  decide

/-! ## The two tables in lockstep -/

structure Tables where
  func : FuncPageTable := {}
  arch : MultiLevelPageTable := {}

namespace Tables

open MultiLevelPageTable

variable (A : Allocator) {call : PageCall}

/-- A call that both tables accept. -/
def step (S : Tables) (call : PageCall) : Option Tables :=
  (S.func.step 12 call).bind fun F => (S.arch.step A call).map fun P => ⟨F, P⟩

/-- The attributes that a lookup returns: uncacheable and read-only. -/
def attributes (e : TlbEntry) : Bool × Bool := (e.uncacheable, !e.writable)

/-- The two tables answer alike for every canonical address. -/
def Agree (S : Tables) : Prop :=
  ∀ v, Canonical v → S.func.translate 12 v = S.arch.translate A v ∧
    (S.func.lookup 12 v).2.map attributes = (S.arch.lookup A v).2.map attributes

/-- The tables behind the caches have the same pages, and both caches agree with theirs. -/
structure Matched (A : Allocator) (F : FuncPageTable) (P : MultiLevelPageTable) : Prop where
  func : F.Cached
  arch : P.Cached A
  same : ∀ a, IsPage a → F.table a = P.table A a

section Matched

variable {A : Allocator} {F F' : FuncPageTable} {P P' : MultiLevelPageTable} {v p : ℕ}

theorem Matched.mapPage {flags : MappingFlags} (h : Matched A F P) (hv : IsPage v) (hp : IsFrame p)
    (hF : F.mapPage 12 flags v p = some F') (hP : P.mapPage A flags v p = some P') :
    Matched A F' P' where
  func := h.func.mapPage hF
  arch := h.arch.mapPage hv hp hP
  same := by
    intro a ha
    rw [(FuncPageTable.table_mapPage hF).1, (mapPage_spec h.arch.wellformed hv hp hP).2.1 a ha]
    exact update_congr (h.same a ha)

theorem Matched.unmapPage (h : Matched A F P) (hv : IsPage v)
    (hF : F.unmapPage v = some F') (hP : P.unmapPage A v = some P') : Matched A F' P' where
  func := h.func.unmapPage hF
  arch := h.arch.unmapPage hv hP
  same := by
    intro a ha
    rw [(FuncPageTable.table_unmapPage hF).1, (unmapPage_spec h.arch.wellformed hv hP).2.1 a ha]
    exact update_congr (h.same a ha)

theorem canonical_pageAlign (h : Canonical v) : Canonical (pageAlign 12 v) := by
  unfold Canonical pageAlign at *
  omega

theorem Matched.agree (h : Matched A F P) : Agree A ⟨F, P⟩ := by
  intro v hv
  have hpage : IsPage (pageAlign 12 v) := ⟨canonical_pageAlign hv, pageAlign_mod v⟩
  -- both lookups give the translation of the table, and so do the parts of it
  have hlookup : (F.lookup 12 v).2.map TlbEntry.translation =
      (P.lookup A v).2.map TlbEntry.translation :=
    calc (F.lookup 12 v).2.map TlbEntry.translation
      _ = F.table (pageAlign 12 v) := h.func.coherent v
      _ = P.table A (pageAlign 12 v) := h.same _ hpage
      _ = (P.lookup A v).2.map TlbEntry.translation := (h.arch.coherent v).symm
  constructor
  · have hstart := congrArg (Option.map fun t => pageOffset 12 v + Translation.pageStart t) hlookup
    rwa [map_map, map_map] at hstart
  · have hattr :=
      congrArg (Option.map fun t => (Translation.uncacheable t, !Translation.writable t)) hlookup
    rwa [map_map, map_map] at hattr

theorem Matched.lookup (h : Matched A F P) (hv : Canonical (pageAlign 12 v)) :
    Matched A (F.lookup 12 v).1 (P.lookup A v).1 where
  func := (h.func.lookup v).1
  arch := (h.arch.lookup v).1 hv
  same := by
    intro a ha
    have hF : (F.lookup 12 v).1.table = F.table := by
      unfold FuncPageTable.lookup
      dsimp only
      split
      · rfl
      · split <;> rfl
    have hP : (P.lookup A v).1.table A = P.table A := by
      unfold MultiLevelPageTable.lookup
      dsimp only
      rw [walk_false]
      split
      case h_1 => rfl
      case h_2 =>
        cases Lib.node PageTableEntry.getPnum P.mem (basePtr A) (offsets (pageAlign 12 v)) with
        | none => rfl
        | some n =>
          dsimp only
          split <;> rfl
    rw [hF, hP]
    exact h.same a ha

theorem Matched.step (h : Matched A F P) (hcall : call.Unmoved)
    (hF : F.step 12 call = some F') (hP : P.step A call = some P') : Matched A F' P' := by
  cases call with
  | map vaddr paddr size flags =>
    change P.map A vaddr paddr size flags = some P' at hP
    unfold MultiLevelPageTable.map at hP
    rcases ite_none_right_eq_some.1 hF with ⟨halign, hF⟩
    rw [if_pos halign] at hP
    refine foldlM_simulation (fun k hk F F' P P' h hF hP => ?_) h hF hP
    have hfit := hcall k (List.mem_range.1 hk)
    exact h.mapPage ⟨hfit.1, nthPage_mod halign k⟩ hfit.2 hF hP
  | remap vaddr size newVaddr =>
    change P.remap A vaddr size newVaddr = some P' at hP
    unfold MultiLevelPageTable.remap at hP
    rcases ite_none_right_eq_some.1 hF with ⟨halign, hF⟩
    -- there is no page to move
    rw [if_pos halign, numPages_nonpos hcall] at hP
    rw [numPages_nonpos hcall] at hF
    cases hF
    cases hP
    exact h
  | unmap vaddr size =>
    change P.unmap A vaddr size = some P' at hP
    unfold MultiLevelPageTable.unmap at hP
    rcases ite_none_right_eq_some.1 hF with ⟨halign, hF⟩
    rw [if_pos halign] at hP
    refine foldlM_simulation (fun k hk F F' P P' h hF hP => ?_) h hF hP
    exact h.unmapPage ⟨hcall k (List.mem_range.1 hk), nthPage_mod halign k⟩ hF hP
  | lookup vaddr =>
    cases hF
    cases hP
    exact h.lookup hcall

end Matched

theorem step_some {A : Allocator} {S S' : Tables} (h : S.step A call = some S') :
    S.func.step 12 call = some S'.func ∧ S.arch.step A call = some S'.arch := by
  rcases bind_eq_some_iff.1 h with ⟨F, hF, h⟩
  rcases map_eq_some_iff.1 h with ⟨P, hP, rfl⟩
  exact ⟨hF, hP⟩

/-- The architectural table refines the functional one while no page is moved. -/
theorem agree_of_unmoved (calls : List PageCall) (hcalls : ∀ call ∈ calls, call.Unmoved) :
    Always (Tables.step A) (Agree A) {} calls := by
  have hinit : Matched A {} {} := ⟨FuncPageTable.Cached.initial, Cached.initial, fun a _ => rfl⟩
  refine Always.of_throughout (fun _ h => Matched.agree h) (fun S call S' h hcall hS => ?_) hinit
    (Throughout.of_forall_mem fun call hcall _ => hcalls call hcall)
  exact h.step hcall (step_some hS).1 (step_some hS).2

theorem agree_of_unmoved_mapAndUnmap :
    Always (Tables.step smallAllocator) (Agree smallAllocator) {} mapAndUnmap :=
  agree_of_unmoved smallAllocator mapAndUnmap unmoved_mapAndUnmap

/-- One page is mapped and moved to a free one: the tables disagree about it. -/
theorem disagree_of_remap :
    ((mapAndRemap.foldlM (Tables.step smallAllocator) {}).map fun S =>
        (S.func.translate 12 0x2000, S.arch.translate smallAllocator 0x2000)) =
      some (some 0x5000, some 5) := by
  decide

end Tables

end EnocGem5.Mem

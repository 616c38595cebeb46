import EnocGem5.Minor.LSQ

/-!
# Fragments — what the parts of a request do

The fragments of a request tile its range of virtual addresses. If they are contiguous in physical
memory as well, then the range comparison of the store buffer says what it should: no coverage means
no byte in common, full coverage means that the store has every byte of the load.

`Tracked` follows the packets of a request. Whatever the order of the responses, a load is complete
when each of its fragments has its data.
-/

namespace EnocGem5.Minor

open Lib List Nat

/-! ## The fragments tile the range -/

structure Tiles (lo hi : ℕ) (parts : List (ℕ × ℕ)) : Prop where
  inside : ∀ part ∈ parts, lo ≤ part.1 ∧ part.1 + part.2 ≤ hi
  cover : ∀ o, lo ≤ o → o < hi → ∃ part ∈ parts, part.1 ≤ o ∧ o < part.1 + part.2

theorem Tiles.nil {a b : ℕ} (h : b ≤ a) : Tiles a b [] where
  inside := by simp
  cover := by intro o hlo hhi; omega

theorem Tiles.cons {a n hi : ℕ} {parts : List (ℕ × ℕ)} (h : Tiles (a + n) hi parts)
    (hn : a + n ≤ hi) : Tiles a hi ((a, n) :: parts) where
  inside := by
    refine forall_mem_cons.2 ⟨⟨le_rfl, hn⟩, fun part hpart => ?_⟩
    have hin := h.inside part hpart
    exact ⟨by omega, hin.2⟩
  cover := by
    intro o hlo hhi
    by_cases ho : o < a + n
    · exact ⟨(a, n), mem_cons_self, hlo, ho⟩
    · obtain ⟨part, hpart, hin⟩ := h.cover o (by omega) hhi
      exact ⟨part, mem_cons_of_mem _ hpart, hin⟩

/-- The fragments after the first one, if there are as many as the rest of the range has lines. -/
theorem fragmentsFrom_tiles {W base fin first n addr : ℕ} (hbase : base < addr)
    (hlo : fin ≤ addr + n * W) (hhi : addr + n * W < fin + W) :
    Tiles addr fin (fragmentsFrom W base fin first n addr) := by
  induction n generalizing addr with
  | zero => exact Tiles.nil (by omega)
  | succ n ih =>
    have hne : addr ≠ base := by omega
    have hmul : (n + 1) * W = n * W + W := succ_mul n W
    simp only [fragmentsFrom, if_neg hne]
    by_cases hlast : addr + W > fin
    · rw [if_pos hlast]
      -- the line of `fin` is reached, so that no fragment is left
      have hn : n = 0 := by
        by_contra hpos
        have hle : 1 * W ≤ n * W := mul_le_mul_right W (one_le_iff_ne_zero.2 hpos)
        omega
      subst hn
      exact Tiles.cons (Tiles.nil (by omega)) (by omega)
    · rw [if_neg hlast]
      exact Tiles.cons (ih (by omega) (by omega) (by omega)) (by omega)

theorem addrBlockOffset_two_pow (addr bits : ℕ) :
    addrBlockOffset addr (2 ^ bits) = addr % 2 ^ bits :=
  and_two_pow_sub_one_eq_mod addr bits

theorem makeFragmentRequests_tiles {bits base size : ℕ}
    (h : transferNeedsBurst base size (2 ^ bits) = true) :
    Tiles base (base + size) (makeFragmentRequests (2 ^ bits) base size) := by
  have hW : 0 < 2 ^ bits := Nat.two_pow_pos bits
  simp only [transferNeedsBurst, decide_eq_true_eq, addrBlockOffset_two_pow] at h
  simp only [makeFragmentRequests, addrBlockOffset_two_pow]
  generalize 2 ^ bits = W at h hW ⊢
  have hoff : base % W < W := mod_lt _ hW
  have hlast : (base + size) % W < W := mod_lt _ hW
  -- the second line starts at `(base / W + 1) * W`, and `d` whole lines follow
  have hb : base + (W - base % W) = (base / W + 1) * W := by
    have hbase := div_add_mod' base W
    have hsucc : (base / W + 1) * W = base / W * W + W := succ_mul _ _
    omega
  have he := div_add_mod' (base + size) W
  obtain ⟨d, hd⟩ : ∃ d, (base + size) / W = base / W + 1 + d :=
    Nat.exists_eq_add_of_le ((Nat.le_div_iff_mul_le hW).2 (by omega))
  have hdW : (base + size) / W * W = (base / W + 1) * W + d * W := by rw [hd, add_mul]
  have hmiddle : (size - (W - base % W + (base + size) % W)) / W = d := by
    have : size - (W - base % W + (base + size) % W) = d * W := by omega
    rw [this, Nat.mul_div_cancel _ hW]
  rw [hmiddle]
  have hcount : 1 + d + (if (base + size) % W = 0 then 0 else 1)
      = (d + if (base + size) % W = 0 then 0 else 1) + 1 := by ring
  rw [hcount, fragmentsFrom, if_pos rfl]
  apply Tiles.cons
  · apply fragmentsFrom_tiles
    · omega
    all_goals
      by_cases hz : (base + size) % W = 0
      · rw [if_pos hz, add_zero]
        omega
      · rw [if_neg hz, add_mul]
        omega
  · omega

theorem Config.fragments_tiles (cfg : Config) (vaddr size : ℕ) :
    Tiles vaddr (vaddr + size) ((cfg.fragments vaddr size).map fun f => (f.vaddr, f.size)) := by
  have hparts : (cfg.fragments vaddr size).map (fun f => (f.vaddr, f.size))
      = if transferNeedsBurst vaddr size cfg.lineWidth
      then makeFragmentRequests cfg.lineWidth vaddr size
        else [(vaddr, size)] := by
    rw [Config.fragments, map_map]
    exact map_id _
  rw [hparts]
  by_cases h : transferNeedsBurst vaddr size cfg.lineWidth = true
  · rw [if_pos h]
    exact makeFragmentRequests_tiles h
  · rw [if_neg h]
    exact Tiles.cons (Tiles.nil le_rfl) le_rfl

/-! ## The bytes of a request -/

namespace LSQRequest

def write (r : LSQRequest) : ℕ → Option Byte := youngest (r.fragments.map r.piece)

def issuedWrite (r : LSQRequest) : ℕ → Option Byte :=
  youngest ((r.fragments.take r.numIssuedFragments).map r.piece)

/-- The fragments tile the range, in physical memory as well, and its end is a 64-bit address. -/
structure WellFormed (r : LSQRequest) : Prop where
  inside : ∀ f ∈ r.fragments, r.vaddr ≤ f.vaddr ∧ f.vaddr + f.size ≤ r.vaddr + r.size
  cover : ∀ o < r.size, ∃ f ∈ r.fragments, f.vaddr ≤ r.vaddr + o ∧ r.vaddr + o < f.vaddr + f.size
  contiguous : ∀ f ∈ r.fragments, f.paddr = r.paddr + (f.vaddr - r.vaddr)
  bounded : r.paddr + r.size < 2 ^ 64

variable {r s : LSQRequest} {f : Fragment} {a : ℕ} {v : Byte} {state : LSQRequestState}

theorem WellFormed.piece_eq_some (h : r.WellFormed) (hf : f ∈ r.fragments)
    (hv : r.piece f a = some v) :
    (r.paddr ≤ a ∧ a < r.paddr + r.size) ∧ v = r.data (a - r.paddr) := by
  have hin := h.inside f hf
  have hc := h.contiguous f hf
  rw [piece] at hv
  rcases Option.ite_none_right_eq_some.1 hv with ⟨hrange, hv⟩
  cases hv
  refine ⟨by omega, ?_⟩
  congr 1
  omega

theorem WellFormed.write_eq (h : r.WellFormed) (a : ℕ) :
    r.write a = if r.paddr ≤ a ∧ a < r.paddr + r.size then some (r.data (a - r.paddr))
    else none := by
  cases hw : r.write a with
  | some v =>
    obtain ⟨p, hp, hv⟩ := exists_of_youngest hw
    obtain ⟨f, hf, rfl⟩ := mem_map.1 hp
    obtain ⟨hrange, rfl⟩ := h.piece_eq_some hf hv
    rw [if_pos hrange]
  | none =>
    rw [if_neg]
    rintro ⟨hlo, hhi⟩
    -- the fragment that covers the byte writes it
    obtain ⟨f, hf, hcov⟩ := h.cover (a - r.paddr) (by omega)
    have hc := h.contiguous f hf
    have hnone := youngest_eq_none.1 hw _ (mem_map_of_mem hf)
    rw [piece, if_pos (by omega)] at hnone
    cases hnone

/-- No coverage: no byte of the load is written by the store. -/
theorem write_of_noCoverage (hs : s.WellFormed) (hr : r.WellFormed)
    (h : s.containsAddrRangeOf r = .NoAddrRangeCoverage) (hlo : r.paddr ≤ a)
    (hhi : a < r.paddr + r.size) : s.write a = none := by
  rw [hs.write_eq, if_neg]
  rintro ⟨hlo', hhi'⟩
  simp only [containsAddrRangeOf, Minor.containsAddrRangeOf, mod_eq_of_lt hs.bounded,
    mod_eq_of_lt hr.bounded] at h
  rw [if_neg (by omega)] at h
  split at h <;> cases h

/-- Full coverage: the store has each byte of the load where `forwardStoreData` takes it. -/
theorem write_of_fullCoverage (hs : s.WellFormed) (hr : r.WellFormed)
    (h : s.containsAddrRangeOf r = .FullAddrRangeCoverage) {k : ℕ} (hk : k < r.size) :
    s.write (r.paddr + k) = some (s.data (r.paddr - s.paddr + k)) := by
  simp only [containsAddrRangeOf, Minor.containsAddrRangeOf, mod_eq_of_lt hs.bounded,
    mod_eq_of_lt hr.bounded] at h
  split at h
  · cases h
  · split at h
    · rename_i hfull
      rw [hs.write_eq, if_pos (by omega)]
      congr 2
      omega
    · cases h

/-! ## The packets of a request -/

/-- The load has the data `e` of a fragment. -/
def Right (e : ℕ → Byte) (r : LSQRequest) (f : Fragment) : Prop :=
  ∀ k < f.size, r.data (f.vaddr - r.vaddr + k) = e (f.paddr + k)

/-- `ps` are the packets of the request in flight, and `e` is what a load is to read. -/
structure Tracked (e : ℕ → Byte) (ps : List InFlight) (r : LSQRequest) : Prop where
  count : r.numRetiredFragments + ps.length = r.numIssuedFragments
  le : r.numIssuedFragments ≤ r.fragments.length
  arriving : r.isLoad →
    ∀ p ∈ ps, ∀ f, r.fragments[p.index]? = some f → ∀ k < f.size, p.data k = e (f.paddr + k)
  landed : r.isLoad → ∀ i f, i < r.numIssuedFragments → r.fragments[i]? = some f →
    (∃ p ∈ ps, p.index = i) ∨ r.Right e f
  done : r.isLoad → r.state = .Complete → ∀ f ∈ r.fragments, r.Right e f

namespace Tracked

variable {e : ℕ → Byte} {ps ps' : List InFlight} {p : InFlight}

theorem restated (h : Tracked e ps r) (hstate : state ≠ .Complete) :
    Tracked e ps { r with state } where
  __ := h
  done := fun _ hdone => absurd hdone hstate

theorem sent (h : Tracked e ps r) (hstate : state ≠ .Complete)
    (hf : r.fragments[r.numIssuedFragments]? = some f) (hp : p.index = r.numIssuedFragments)
    (hdata : r.isLoad → ∀ k < f.size, p.data k = e (f.paddr + k)) :
    Tracked e (ps ++ [p]) (r.stepToNextPacket state) where
  count := by
    have := h.count
    simp only [stepToNextPacket, length_append, length_singleton]
    omega
  le := (List.getElem?_eq_some_iff.1 hf).1
  arriving := by
    intro hl q hq g hg
    rcases mem_append.1 hq with hq | hq
    · exact h.arriving hl q hq g hg
    · obtain rfl := mem_singleton.1 hq
      rw [hp] at hg
      obtain rfl : f = g := Option.some.inj (hf.symm.trans hg)
      exact hdata hl
  landed := by
    intro hl i g hi hg
    rcases Nat.lt_succ_iff_lt_or_eq.1 hi with hi | rfl
    · refine (h.landed hl i g hi hg).imp_left ?_
      rintro ⟨q, hq, hqi⟩
      exact ⟨q, mem_append_left _ hq, hqi⟩
    · exact .inl ⟨p, mem_append_right _ mem_cons_self, hp⟩
  done := fun _ hdone => absurd hdone hstate

/-- All the data at once, as `forwardStoreData` gives it. -/
theorem forwarded {data : ℕ → Byte} (h : Tracked e ps r) (hr : r.WellFormed)
    (hdata : ∀ k < r.size, data k = e (r.paddr + k)) :
    Tracked e ps { r with data, state := .Complete } := by
  have hright : ∀ f ∈ r.fragments, LSQRequest.Right e { r with data, state := .Complete } f := by
    intro f hf k hk
    have hin := hr.inside f hf
    change data (f.vaddr - r.vaddr + k) = e (f.paddr + k)
    rw [hr.contiguous f hf, add_assoc]
    exact hdata _ (by omega)
  exact { h with
    landed := fun _ _ g _ hg => .inr (hright g (mem_of_getElem? hg)), done := fun _ _ => hright }

theorem retired (h : Tracked e (ps ++ p :: ps') r) (hr : r.WellFormed)
    (hstate : r.state ≠ .Complete) (hf : r.fragments[p.index]? = some f) :
    Tracked e (ps ++ ps') (r.retireResponse f p.data) := by
  have hcount : r.numRetiredFragments + 1 + (ps ++ ps').length = r.numIssuedFragments := by
    have := h.count
    simp only [length_append, length_cons] at this ⊢
    omega
  have hmem : ∀ q ∈ ps ++ p :: ps', q = p ∨ q ∈ ps ++ ps' := by
    intro q hq
    rcases mem_append.1 hq with hq | hq
    · exact .inr (mem_append_left _ hq)
    · exact (mem_cons.1 hq).imp_right (mem_append_right _)
  have harr : r.isLoad → ∀ k < f.size, p.data k = e (f.paddr + k) := fun hl =>
    h.arriving hl p (mem_append_right _ mem_cons_self) f hf
  have hfc := hr.contiguous f (mem_of_getElem? hf)
  -- a byte of the response is right, also where it is a byte of another fragment
  have hkeep : r.isLoad → ∀ g ∈ r.fragments, r.Right e g ∨ g = f →
      (r.retireResponse f p.data).Right e g := by
    intro hl g hg hright k hk
    have hgc := hr.contiguous g hg
    change (if r.isLoad ∧ f.vaddr - r.vaddr ≤ g.vaddr - r.vaddr + k ∧
        g.vaddr - r.vaddr + k < f.vaddr - r.vaddr + f.size
      then p.data (g.vaddr - r.vaddr + k - (f.vaddr - r.vaddr))
        else r.data (g.vaddr - r.vaddr + k)) = e (g.paddr + k)
    split
    · rename_i hin
      rw [harr hl _ (by omega)]
      congr 1
      omega
    · rename_i hout
      rcases hright with hright | rfl
      · exact hright k hk
      · exact absurd ⟨hl, by omega, by omega⟩ hout
  have hland : r.isLoad → ∀ i g, i < r.numIssuedFragments → r.fragments[i]? = some g →
      (∃ q ∈ ps ++ ps', q.index = i) ∨ (r.retireResponse f p.data).Right e g := by
    intro hl i g hi hg
    have hgm := mem_of_getElem? hg
    rcases h.landed hl i g hi hg with ⟨q, hq, rfl⟩ | hright
    · rcases hmem q hq with rfl | hq
      · exact .inr (hkeep hl g hgm (.inr (Option.some.inj (hg.symm.trans hf))))
      · exact .inl ⟨q, hq, rfl⟩
    · exact .inr (hkeep hl g hgm (.inl hright))
  refine ⟨hcount, h.le, fun hl q hq => h.arriving hl q ?_, hland, ?_⟩
  · rcases mem_append.1 hq with hq | hq
    · exact mem_append_left _ hq
    · exact mem_append_right _ (mem_cons_of_mem _ hq)
  · intro hl hdone g hg
    have hle := h.le
    by_cases hlast : r.numRetiredFragments + 1 = r.fragments.length
    · -- every fragment was issued, and nothing is in flight
      have hnil : ps ++ ps' = [] := length_eq_zero_iff.1 (by omega)
      obtain ⟨i, hi, rfl⟩ := mem_iff_getElem.1 hg
      rcases hland hl i _ (by change i < r.fragments.length at hi; omega)
          (getElem?_eq_getElem hi) with
        ⟨q, hq, _⟩ | hright
      · rw [hnil] at hq
        cases hq
      · exact hright
    · change (if _ then _ else _) = _ at hdone
      rw [if_neg hlast] at hdone
      exact absurd hdone hstate

/-- All packets of a request were sent before the last response. -/
theorem sentAll (h : Tracked e (ps ++ p :: ps') r)
    (hlast : r.numRetiredFragments + 1 = r.fragments.length) :
    r.numIssuedFragments = r.fragments.length := by
  have hcount := h.count
  have hle := h.le
  simp only [length_append, length_cons] at hcount
  omega

end Tracked

end LSQRequest

/-! ## Forwarding -/

variable {load store : LSQRequest} {slots : List LSQRequest} {found : Option LSQRequest}

theorem canForward_none (h : canForwardDataToLoad load slots = (.NoAddrRangeCoverage, found)) :
    ∀ s ∈ slots, s.containsAddrRangeOf load = .NoAddrRangeCoverage := by
  induction slots with
  | nil => simp
  | cons slot older ih =>
    rw [canForwardDataToLoad] at h
    cases hc : slot.containsAddrRangeOf load <;> rw [hc] at h
    · cases h
    · cases h
    · exact forall_mem_cons.2 ⟨hc, ih h⟩

/-- The slot whose data is forwarded, with those after it: they have no coverage. -/
theorem canForward_full (h : canForwardDataToLoad load slots =
    (.FullAddrRangeCoverage, some store)) :
    ∃ younger older, slots = younger ++ store :: older ∧
      store.containsAddrRangeOf load = .FullAddrRangeCoverage ∧
      ∀ s ∈ younger, s.containsAddrRangeOf load = .NoAddrRangeCoverage := by
  induction slots with
  | nil => cases h
  | cons slot older ih =>
    rw [canForwardDataToLoad] at h
    cases hc : slot.containsAddrRangeOf load <;> rw [hc] at h
    · cases h
    · cases h
      exact ⟨[], older, rfl, hc, by simp⟩
    · obtain ⟨younger, rest, rfl, hfull, hno⟩ := ih h
      exact ⟨slot :: younger, rest, rfl, hfull, forall_mem_cons.2 ⟨hc, hno⟩⟩

end EnocGem5.Minor

import EnocGem5.Noc.Links
import EnocGem5.Noc.TrafficSpec

/-!
# Pipes — the flits on their way to a virtual channel

A flit under way over a link carries the number of the VC it was sent to. `coming` is the part of a
link that will be buffered in a given VC: the flits for this VC that are not at their destination
when they arrive. Buffering moves the front of `coming` to the end of the VC, the switch and the
traffic manager append to it, and nothing else changes it.
-/

namespace EnocGem5.Noc

open Lib List

/-- The flit will be buffered in VC `l` when it arrives over the link of this VC's port. -/
def Flit.landsIn (f : Flit) (l : Loc) : Bool := f.vc = l.2.2 && decide (f.dstId ≠ (l.1 : ℤ))

theorem Flit.landsIn_iff {f : Flit} {l : Loc} :
    f.landsIn l = true ↔ f.vc = l.2.2 ∧ f.dstId ≠ (l.1 : ℤ) := by
  simp [Flit.landsIn]

/-- The virtual channel is one of an input port of the mesh. -/
def IsPort (k : ℕ) (l : Loc) : Prop := l.1 < k * k ∧ l.2.1 < 5

/-- VC `w` of the input port that output port `p` of router `r` leads to. -/
def nextLoc (k r p w : ℕ) : Loc := (neighbour k r p, inPort p, w)

theorem isPort_nextLoc {k r : ℕ} (p w : ℕ) (hr : r < k * k) : IsPort k (nextLoc k r p w) :=
  ⟨neighbour_lt p hr, (inPort_lt p).trans (by decide)⟩

/-- The flits under way that will be buffered in VC `l`, oldest first; `L` gives the links. -/
def coming (k : ℕ) (L : ChanId → List Flit) (l : Loc) : List Flit :=
  (L (inChan k l.1 l.2.1)).filter (·.landsIn l)

namespace NetworkNoC

variable {k r s i v w : ℕ} {f : Flit} {N N' : NetworkNoC} {l : Loc}

theorem Taken.coming (h : Taken k r i f N N') (hr : r < k * k) (hi : i < 5) (hl : IsPort k l) :
    coming k (N.midLink k) l =
      (if l = (r, i, f.vc) ∧ f.dstId ≠ (r : ℤ) then [f] else []) ++ coming k (N'.midLink k) l := by
  rcases l with ⟨r', i', v⟩
  by_cases hc : inChan k r' i' = inChan k r i
  · rcases inChan_inj hl.1 hr hl.2 hi hc with ⟨rfl, rfl⟩
    simp only [Noc.coming, h.front, filter_cons]
    by_cases hland : f.landsIn (r', i', v) = true
    · have hv : f.vc = v := (Flit.landsIn_iff.1 hland).1
      have hdst : f.dstId ≠ (r' : ℤ) := (Flit.landsIn_iff.1 hland).2
      simp [hland, hv, hdst]
    · have hne : ¬ ((r', i', v) = (r', i', f.vc) ∧ f.dstId ≠ (r' : ℤ)) := by
        rintro ⟨he, hdst⟩
        cases he
        exact hland (Flit.landsIn_iff.2 ⟨rfl, hdst⟩)
      rw [if_neg hne]
      simp [hland]
  · have hne : (r', i', v) ≠ (r, i, f.vc) := by
      intro he
      cases he
      exact hc rfl
    simp only [Noc.coming, h.others _ (isChan_inChan hl.1) hc]
    simp [hne]

theorem Moved.coming (h : Moved k r i v w f N N') (hr : r < k * k) (hl : IsPort k l) :
    coming k (N'.midLink k) l = coming k (N.midLink k) l ++
      if l = nextLoc k r f.outputPort w ∧ f.dstId ≠ (l.1 : ℤ) then [{ f with vc := w }]
          else [] := by
  rcases l with ⟨r', i', v'⟩
  have hport := isPort_nextLoc (k := k) f.outputPort w hr
  have hchan := inChan_neighbour (k := k) hr h.port_lt
  by_cases hc : inChan k r' i' = outChan r f.outputPort
  · rcases inChan_inj hl.1 hport.1 hl.2 hport.2 (hc.trans hchan.symm) with ⟨rfl, rfl⟩
    simp only [Noc.coming, nextLoc, hchan, h.pushed, filter_append, filter_singleton]
    congr 1
    simp only [Flit.landsIn, Prod.mk.injEq, true_and]
    by_cases hv : w = v'
    · subst hv
      simp
    · have hv' : v' ≠ w := fun he => hv he.symm
      simp [hv, hv']
  · have hne : (r', i', v') ≠ nextLoc k r f.outputPort w := by
      intro he
      cases he
      exact hc hchan
    simp only [Noc.coming, h.others _ hc]
    simp [hne]

/-! ## Injecting -/

/-- The new flit follows what is under way; only a flit in the taken slot is dropped. -/
theorem coming_writeFlit (hs : s < k * k) (f : Flit) (hl : IsPort k l) :
    ∃ kept, kept <+: coming k N.link l ∧
      coming k (N.writeFlit s f).link l =
        kept ++ (if l = (s, 4, f.vc) ∧ f.dstId ≠ (s : ℤ) then [f] else []) ∧
      ((N.channel (.inject s)).input = none → kept = coming k N.link l) := by
  rcases l with ⟨r, i, v⟩
  by_cases hc : inChan k r i = .inject s
  · have hin : inChan k s 4 = .inject s := rfl
    rcases inChan_inj hl.1 hs hl.2 (by decide) (hc.trans hin.symm) with ⟨rfl, rfl⟩
    obtain ⟨rest, hold, hnew⟩ : ∃ rest,
        N.link (.inject r) = rest ++ (N.channel (.inject r)).input.toList ∧
        (N.writeFlit r f).link (.inject r) = rest ++ [f] := by
      refine ⟨(N.channel (.inject r)).output.toList ++
        (N.channel (.inject r)).waitQueue.map Prod.snd, ?_, ?_⟩
      · simp [link, transit, upstream, Channel.queued]
      · simp [link, transit, upstream, Channel.queued, writeFlit]
    refine ⟨rest.filter (·.landsIn (r, 4, v)), ?_, ?_, ?_⟩
    · rw [coming, hin, hold, filter_append]
      exact prefix_append _ _
    · rw [coming, hin, hnew, filter_append, filter_singleton]
      congr 1
      simp only [Flit.landsIn, Prod.mk.injEq, true_and]
      by_cases hv : f.vc = v
      · subst hv
        simp
      · have hv' : v ≠ f.vc := fun he => hv he.symm
        simp [hv, hv']
    · intro hfree
      rw [coming, hin, hold, hfree]
      simp
  · have hne : (r, i, v) ≠ (s, 4, f.vc) := by
      intro he
      cases he
      exact hc rfl
    have hsame : (N.writeFlit s f).link (inChan k r i) = N.link (inChan k r i) := by
      have hup : (N.writeFlit s f).upstream = N.upstream := by
        funext c
        cases c <;> rfl
      rw [link, link, transit, transit, hup, writeFlit]
      simp only [Function.update_of_ne hc]
    exact ⟨coming k N.link (r, i, v), prefix_rfl, by simp [coming, hsame, hne], fun _ => rfl⟩

end NetworkNoC

end EnocGem5.Noc

import EnocGem5.Lib.Run
import EnocGem5.Coherence.Directory

/-!
# Frame — what the accesses leave alone

Every access to caches, directory and tables is made of four writes: a cache set, a push to a table,
a change of the rows. A relation that each of them respects is respected by all of `process`; one
that ignores the rows is respected by the parts of the directory that do not write them.
-/

namespace EnocGem5.Coherence.ENoC

open Mem Noc Lib Option

/-- `R` relates the states before and after a write to a cache set and a push to a table. -/
structure AccessFrame (R : ENoC → ENoC → Prop) : Prop where
  refl : ∀ S, R S S
  trans : ∀ {S S' S''}, R S S' → R S' S'' → R S S''
  setSet : ∀ S l node addr s, R S (S.setSet l node addr s)
  push : ∀ {S S' src type pk}, S.push src type pk = some S' → R S S'

/-- `R` also relates the states before and after a change of the rows. -/
structure ProcessFrame (R : ENoC → ENoC → Prop) : Prop extends AccessFrame R where
  lines : ∀ S lines, R S { S with lines := lines }

variable {R : ENoC → ENoC → Prop} {S S' : ENoC} {pkt : Packet} {time : ℤ} {dir i node addr w : ℕ}
  {l : Level} {x : MESI}

namespace AccessFrame

variable (hR : AccessFrame R)
include hR

theorem putMESI (S : ENoC) (l : Level) (node addr : ℕ) (x : MESI) :
    R S (S.putMESI l node addr x) := by
  unfold ENoC.putMESI
  split_ifs
  · exact hR.setSet _ _ _ _ _
  · exact hR.refl S

theorem updateLRU (h : S.updateLRU l node addr w = some S') : R S S' := by
  obtain ⟨s, _, rfl⟩ := map_eq_some_iff.1 h
  exact hR.setSet _ _ _ _ _

theorem fill (h : S.fill l node addr x = some S') : R S S' := by
  obtain ⟨Q, hQ, hrest⟩ := bind_eq_some_iff.1 h
  rw [← some.inj hrest]
  exact hR.trans (hR.updateLRU hQ) (hR.setSet _ _ _ _ _)

theorem refresh (h : S.refresh l node addr x = some S') : R S S' := by
  unfold ENoC.refresh at h
  split_ifs at h
  · exact hR.trans (hR.putMESI S l node addr x) (hR.updateLRU h)
  · cases h
    exact hR.refl S

theorem refreshOrFill (h : S.refreshOrFill l node addr x = some S') : R S S' := by
  unfold ENoC.refreshOrFill at h
  split_ifs at h
  · exact hR.refresh h
  · exact hR.fill h

theorem askMemory (h : S.askMemory pkt time dir = some S') : R S S' := by
  simp only [ENoC.askMemory, bind_eq_bind, bind_eq_some_iff] at h
  obtain ⟨Q, hQ, P, hP, M, hM, hrest⟩ := h
  split_ifs at hrest
  exact hR.trans (hR.trans (hR.refresh hQ) (hR.refreshOrFill hP))
    (hR.trans (hR.push hM) (hR.push hrest))

theorem shareL1 (S : ENoC) (pkt : Packet) (i : ℕ) : R S (S.shareL1 pkt i) :=
  hR.trans (hR.putMESI S .L1D i pkt.addr .S) (hR.putMESI _ .L1I i pkt.addr .S)

theorem shareL2 (h : S.shareL2 pkt time dir i = some S') : R S S' := by
  obtain ⟨Q, hQ, hrest⟩ := bind_eq_some_iff.1 h
  unfold sendSharedData at hQ
  split_ifs at hQ
  obtain ⟨P, hP, hQ⟩ := bind_eq_some_iff.1 hQ
  exact hR.trans (hR.putMESI S .L2 i pkt.addr .S)
    (hR.trans (hR.refreshOrFill hP) (hR.trans (hR.push hQ) (hR.push hrest)))

/-- After the look-up `receivePacket` writes caches and tables only. -/
theorem receivePacket (h : S.receivePacket pkt time dir = some S') : R (S.lookupLine pkt).1 S' := by
  unfold ENoC.receivePacket at h
  rcases hlookup : S.lookupLine pkt with ⟨Q, _ | i⟩
  · rw [hlookup] at h
    exact hR.askMemory h
  · rw [hlookup] at h
    simp only at h
    split_ifs at h
    · exact hR.trans (hR.shareL1 Q pkt (i - 1)) (hR.shareL2 h)
    · exact hR.trans (hR.shareL1 Q pkt (i - 1)) (hR.askMemory h)

theorem allocate (h : S.allocate l node addr = some (S', w)) : R S S' := by
  simp only [ENoC.allocate] at h
  split_ifs at h
  · cases h
    exact hR.refl S
  · cases h
    exact hR.setSet _ _ _ _ _

theorem finishWrite (h : S.finishWrite l node addr w x = some S') : R S S' := by
  obtain ⟨Q, hQ, hrest⟩ := bind_eq_some_iff.1 h
  rw [← some.inj hrest]
  exact hR.trans (hR.updateLRU hQ) (hR.setSet _ _ _ _ _)

end AccessFrame

namespace ProcessFrame

variable (hR : ProcessFrame R)
include hR

theorem lookupLine (S : ENoC) (pkt : Packet) : R S (S.lookupLine pkt).1 := by
  unfold ENoC.lookupLine
  split
  · split
    · split_ifs
      · exact hR.lines _ _
      · exact hR.trans (hR.lines _ _) (hR.lines _ _)
    · exact hR.refl S
  · exact hR.lines _ _

theorem invalidateNode {index : ℕ}
    (h : invalidateNode pkt time dir index S i = some S') : R S S' := by
  unfold ENoC.invalidateNode at h
  split_ifs at h
  · obtain ⟨Q, hQ, hrest⟩ := bind_eq_some_iff.1 h
    have hput := hR.trans (hR.trans (hR.putMESI S .L1D i pkt.addr .I)
      (hR.putMESI _ .L1I i pkt.addr .I)) (hR.putMESI _ .L2 i pkt.addr .I)
    rw [← some.inj hrest]
    exact hR.trans hput (hR.trans (hR.push hQ) (hR.lines _ _))
  · cases h
    exact hR.refl S

theorem invalidatePacket (h : S.invalidatePacket pkt time dir = some S') : R S S' := by
  unfold ENoC.invalidatePacket at h
  split at h
  · obtain ⟨Q, hQ, hrest⟩ := bind_eq_some_iff.1 h
    have hloop : R S Q :=
      foldlM_invariant (fun _ _ _ _ hP hP' => hR.trans hP (hR.invalidateNode hP')) (hR.refl S) hQ
    rw [← some.inj hrest]
    exact hR.trans hloop (hR.lines _ _)
  · cases h
    exact hR.lines _ _

theorem evictPacket (S : ENoC) (pkt : Packet) : R S (S.evictPacket pkt) := by
  unfold ENoC.evictPacket
  split
  · exact hR.lines _ _
  · exact hR.lines _ _

theorem askDirectory (h : S.askDirectory pkt = some S') : R S S' := by
  obtain ⟨Q, hQ, hrest⟩ := bind_eq_some_iff.1 h
  exact hR.trans (hR.trans (hR.lookupLine S pkt) (hR.receivePacket hQ)) (hR.push hrest)

theorem read (h : S.read l pkt = some S') : R S S' := by
  simp only [ENoC.read] at h
  split_ifs at h
  · exact hR.updateLRU h
  · simp only [bind_eq_bind, bind_eq_some_iff] at h
    obtain ⟨Q, hQ, P, hP, hrest⟩ := h
    rw [← some.inj hrest]
    exact hR.trans (hR.trans (hR.updateLRU hQ) (hR.updateLRU hP)) (hR.putMESI _ _ _ _ _)
  · exact hR.askDirectory h
  · exact hR.askDirectory h

theorem write (h : S.write x pkt = some S') : R S S' := by
  simp only [ENoC.write, bind_eq_bind, bind_eq_some_iff] at h
  obtain ⟨⟨R₁, w⟩, h₁, R₂, h₂, R₃, h₃, R₄, h₄, ⟨R₅, w'⟩, h₅, h₆⟩ := h
  have hdir := hR.trans (hR.trans (hR.allocate h₁) (hR.invalidatePacket h₂)) (hR.push h₃)
  exact hR.trans (hR.trans hdir (hR.finishWrite h₄)) (hR.trans (hR.allocate h₅) (hR.finishWrite h₆))

theorem evict (h : S.evict pkt = some S') : R S S' := by
  simp only [ENoC.evict, bind_eq_bind, bind_eq_some_iff] at h
  obtain ⟨Q, hQ, P, hP, hrest⟩ := h
  have hdir := hR.trans (hR.putMESI S .L1D (nodeOf pkt) pkt.addr .I) (hR.evictPacket _ pkt)
  rw [← some.inj hrest]
  exact hR.trans (hR.trans hdir (hR.push hQ)) (hR.trans (hR.push hP) (hR.putMESI _ _ _ _ _))

theorem process (h : S.process pkt = some S') : R S S' := by
  unfold ENoC.process at h
  split_ifs at h
  split at h
  · exact hR.read h
  · exact hR.read h
  · exact hR.write h
  · exact hR.write h
  · exact hR.write h
  · exact hR.evict h
  · cases h
    exact hR.refl S

end ProcessFrame

end EnocGem5.Coherence.ENoC

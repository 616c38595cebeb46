import EnocGem5.Ruby.RoutingTables

/-!
# NetDest — the destination set of a message

A set of controllers, with one bit vector for each machine type (`ruby/common/NetDest.cc`).
`getAllDest` lists the node numbers of its controllers. The node numbers of the machine types follow
each other (`MachineType_base_number`), so that a node number belongs to one controller only.
-/

namespace EnocGem5.Ruby

open List

/-! ## Node numbers -/

namespace MachineTypes

variable (M : MachineTypes)

def number (mach : MachineID) : ℕ := M.baseNumber mach.type + mach.num

variable {M} {mach mach' : MachineID}

theorem getElem?_machines {d : ℕ} :
    M.machines[d]? = some mach ↔ mach ∈ M.machines ∧ d = M.number mach := by
  have h := M.mem_zipIdx_machinesUpTo M.num mach d
  rw [mk_mem_zipIdx_iff_getElem?] at h
  change M.machines[d]? = some mach ↔ _ at h
  rw [h, M.mem_machines mach, and_assoc]
  rfl

theorem number_injective (h : mach ∈ M.machines) (h' : mach' ∈ M.machines)
    (heq : M.number mach = M.number mach') : mach = mach' := by
  have hget : M.machines[M.number mach]? = some mach := getElem?_machines.2 ⟨h, rfl⟩
  have hget' : M.machines[M.number mach]? = some mach' := getElem?_machines.2 ⟨h', heq⟩
  exact Option.some.inj (hget.symm.trans hget')

theorem nodup_machines : M.machines.Nodup := by
  refine nodup_iff_getElem?_ne_getElem?.2 fun i j hij hj heq => ?_
  have hlt : i < M.machines.length := Nat.lt_trans hij hj
  have hi : M.machines[i]? = some M.machines[i] := getElem?_eq_getElem hlt
  have hnumber : i = M.number M.machines[i] := (getElem?_machines.1 hi).2
  have hnumber' : j = M.number M.machines[i] := (getElem?_machines.1 (heq.symm.trans hi)).2
  omega

theorem baseNumber_mono {m n : ℕ} (h : m ≤ n) : M.baseNumber m ≤ M.baseNumber n := by
  induction h with
  | refl => exact Nat.le_refl _
  | step _ ih =>
    rw [baseNumber_succ]
    exact Nat.le_add_right_of_le ih

/-- The machine type whose range a node number is in. -/
def typeOf (M : MachineTypes) (destID : ℕ) : Option ℕ :=
  (List.range M.num).find? fun m => M.baseNumber m ≤ destID && destID < M.baseNumber (m + 1)

theorem typeOf_number (h : mach ∈ M.machines) : M.typeOf (M.number mach) = some mach.type := by
  rcases (M.mem_machines mach).1 h with ⟨htype, hnum⟩
  have hrange : M.baseNumber mach.type ≤ M.number mach ∧
      M.number mach < M.baseNumber (mach.type + 1) := by
    rw [baseNumber_succ]
    unfold number
    exact ⟨Nat.le_add_right _ _, by omega⟩
  refine List.find?_range_eq_some.2 ⟨?_, mem_range.2 htype, fun m hm => ?_⟩
  · simp [hrange]
  · -- an earlier type ends before the range
    have hle : M.baseNumber (m + 1) ≤ M.baseNumber mach.type := baseNumber_mono hm
    have hout : ¬ M.number mach < M.baseNumber (m + 1) := Nat.not_lt.2 (Nat.le_trans hle hrange.1)
    simp [hout]

end MachineTypes

/-! ## Destination sets -/

/-- A `NetDest`: the bits of each machine type, as many as there are controllers. -/
@[ext]
structure NetDest (M : MachineTypes) where
  bits : ℕ → ℕ → Bool
  bits_machines : ∀ m j, bits m j = true → (⟨m, j⟩ : MachineID) ∈ M.machines

namespace NetDest

variable {M : MachineTypes} (d e : NetDest M)

def isElement (mach : MachineID) : Bool := d.bits mach.type mach.num

/-- `clear`, and the constructor. -/
def empty : NetDest M := ⟨fun _ _ => false, fun _ _ h => absurd h Bool.false_ne_true⟩

def add (mach : MachineID) : Option (NetDest M) :=
  if h : mach ∈ M.machines then
    some ⟨fun m j => (mach = ⟨m, j⟩) || d.bits m j, fun m j hmj => by
      rcases Bool.or_eq_true_iff.1 hmj with hmj | hmj
      · exact of_decide_eq_true hmj ▸ h
      · exact d.bits_machines m j hmj⟩
  else none

def removeNetDest : NetDest M where
  bits m j := d.bits m j && !e.bits m j
  bits_machines m j h := d.bits_machines m j (Bool.and_eq_true_iff.1 h).1

def getAllDest : List ℕ :=
  (List.range M.num).flatMap fun i =>
    ((List.range (M.baseCount i)).filter (d.bits i)).map (M.baseNumber i + ·)

variable {d e} {mach mach' : MachineID}

theorem mem_machines_of_isElement (h : d.isElement mach = true) : mach ∈ M.machines :=
  d.bits_machines mach.type mach.num h

theorem getAllDest_eq : d.getAllDest = (M.machines.filter d.isElement).map M.number := by
  unfold getAllDest MachineTypes.machines
  rw [filter_flatMap, map_flatMap]
  refine flatMap_congr fun i _ => ?_
  rw [filter_map, map_map]
  rfl

theorem mem_getAllDest {x : ℕ} :
    x ∈ d.getAllDest ↔ ∃ mach, d.isElement mach = true ∧ M.number mach = x := by
  rw [getAllDest_eq, mem_map]
  constructor
  · rintro ⟨mach, hmach, rfl⟩
    exact ⟨mach, (mem_filter.1 hmach).2, rfl⟩
  · rintro ⟨mach, hmach, rfl⟩
    exact ⟨mach, mem_filter.2 ⟨mem_machines_of_isElement hmach, hmach⟩, rfl⟩

theorem number_mem_getAllDest (h : mach ∈ M.machines) :
    M.number mach ∈ d.getAllDest ↔ d.isElement mach = true := by
  rw [mem_getAllDest]
  constructor
  · rintro ⟨mach', hmach', heq⟩
    exact MachineTypes.number_injective (mem_machines_of_isElement hmach') h heq ▸ hmach'
  · intro hmach
    exact ⟨mach, hmach, rfl⟩

theorem nodup_getAllDest (d : NetDest M) : d.getAllDest.Nodup := by
  rw [getAllDest_eq]
  refine Nodup.map_on ?_ (MachineTypes.nodup_machines.filter _)
  intro mach hmach mach' hmach' heq
  exact MachineTypes.number_injective (mem_filter.1 hmach).1 (mem_filter.1 hmach').1 heq

def Single (d : NetDest M) (mach : MachineID) : Prop :=
  ∀ mach', d.isElement mach' = true ↔ mach' = mach

theorem add_empty (h : mach ∈ M.machines) :
    ∃ d : NetDest M, empty.add mach = some d ∧ d.Single mach := by
  unfold add
  rw [dif_pos h]
  refine ⟨_, rfl, fun mach' => ?_⟩
  change ((mach = mach') || false) = true ↔ _
  rw [Bool.or_false, decide_eq_true_eq]
  exact eq_comm

/-- Without one of its controllers, a set has the other node numbers, in the same order. -/
theorem getAllDest_removeNetDest (he : e.Single mach) (hmach : mach ∈ M.machines) :
    (d.removeNetDest e).getAllDest = d.getAllDest.filter (· ≠ M.number mach) := by
  rw [getAllDest_eq, getAllDest_eq, filter_map, filter_filter]
  refine congrArg (List.map M.number) (filter_congr fun mach' hmach' => ?_)
  have hother : e.isElement mach' = decide (M.number mach' = M.number mach) := by
    rw [Bool.eq_iff_iff, he mach', decide_eq_true_eq]
    exact ⟨fun h => h ▸ rfl, fun h => MachineTypes.number_injective hmach' hmach h⟩
  change (d.isElement mach' && !e.isElement mach') = _
  rw [hother, Bool.and_comm]
  simp

/-- A set with one node number is the set of its controller. -/
theorem single_of_getAllDest (hmach : mach ∈ M.machines) (h : d.getAllDest = [M.number mach]) :
    d.Single mach := by
  intro mach'
  constructor
  · intro hmach'
    have hmem := (number_mem_getAllDest (mem_machines_of_isElement hmach')).2 hmach'
    rw [h, mem_singleton] at hmem
    exact MachineTypes.number_injective (mem_machines_of_isElement hmach') hmach hmem
  · rintro rfl
    refine (number_mem_getAllDest hmach).1 ?_
    rw [h]
    exact mem_singleton_self _

end NetDest

end EnocGem5.Ruby

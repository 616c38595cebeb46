import EnocGem5.O3.StoreQueue

/-!
# StoreWriteback — sessions of the store queue

Along every sequence of calls that keeps to the callers' promises, the indices and counters of the
store queue are in order, every assertion holds, and the port accepts the packets of the stores that
may be written back once each and in program order. A call that asks the port and gets its consent
hands over a packet.
-/

namespace EnocGem5.O3.LSQ

open Lib List LSQUnit Store Nat

namespace Session

variable (cfg : Config) {answered : List ℕ} {c : StoreCall} {inst : DynInst} {program : List Store}

/-- The port has accepted all packets of the first `k` stores, in their order, and of the next store
at most a part that leaves its last packet. -/
def SentInOrder (S : Session) (k : ℕ) : Prop :=
  ∃ front, S.unit.sent = (S.program.take k).flatMap (packets cfg) ++ front
    ∧ (front = [] ∨ ∃ s last, S.program[k]? = some s ∧ s.canWB = true
    ∧ s.packets cfg = front ++ [last])

/-- How many stores of the program lie before the write-back index. -/
def handed (S : Session) : ℕ :=
  S.program.length - (((S.unit.storeTail : ℤ) - S.unit.storeWBIdx) % cfg.sqEntries).toNat

/-- The call asks the port, and the port accepts. -/
def Accepted (S : Session) : StoreCall → Prop
  | .writebackStores (true :: _) => Asks cfg S.program (S.handed cfg) S.unit
  | .recvRetry (true :: _) => S.unit.isStoreBlocked = true
  | _ => False

/-- More stores are handed over, or more packets of the same store. -/
def Further (S S' : Session) : Prop :=
  S.handed cfg < S'.handed cfg
    ∨ (S.handed cfg = S'.handed cfg ∧ S.unit.sent.length < S'.unit.sent.length)

/-- What holds between calls. Slots are compared as distances from the head; the last `stores`
stores of the program are in the queue. -/
structure Bookkeeping (S : Session) : Prop where
  stores : S.unit.stores = ((S.unit.storeTail : ℤ) - S.unit.storeHead) % cfg.sqEntries
  circular : ((S.unit.storeWBIdx : ℤ) - S.unit.storeHead) % cfg.sqEntries
    ≤ ((S.unit.storeTail : ℤ) - S.unit.storeHead) % cfg.sqEntries
  storesToWB : S.unit.storesToWB = countSlots cfg.sqEntries SQEntry.waiting S.unit.storeQueue
  held : ∀ (p : ℕ) (s : Store), S.program[p]? = some s →
    (S.program.length : ℤ) - S.unit.stores ≤ p →
      (S.unit.storeQueue (p % cfg.sqEntries)).inst.map (·.seqNum) = some s.inst.seqNum
      ∧ (S.unit.storeQueue (p % cfg.sqEntries)).canWB = s.canWB
  squashed : ∀ s ∈ S.squashed, s.canWB = false
  handed : S.unit.storeWBIdx = S.handed cfg % cfg.sqEntries
  committed : ∀ s ∈ S.program.take (S.handed cfg), s.canWB = true
  sent : S.SentInOrder cfg (S.handed cfg)
  once : (S.unit.sent.map fun pkt => (pkt.seqNum, pkt.part)).Nodup
  drained : S.unit.storesToWB = 0 →
    S.unit.sent = (S.program.filter fun s => s.canWB).flatMap (packets cfg)
  returns : ∀ c, S.Allowed cfg c → (S.step cfg c).isSome = true
  ports : S.unit.usedStorePorts = 0
  proceeds : ∀ c S', S.Accepted cfg c → S.step cfg c = some S' → S.Further cfg S'

/-- No load is in the unit, none stalls, and all store ports are free. -/
structure Quiet (S : Session) : Prop where
  ports : S.unit.usedStorePorts = 0
  stalled : S.unit.stalled = false
  loads : S.unit.loads = 0
  loadTail : S.unit.loadTail = 0
  lqIdx : ∀ s ∈ S.program, s.inst.lqIdx = 0

def Stores (S : Session) : Prop :=
  ∃ h w busy front, StoreInv cfg S.program S.answered h w busy front S.unit

structure Inv (S : Session) : Prop where
  stores : S.Stores cfg
  quiet : S.Quiet
  squashed : ∀ s ∈ S.squashed, s.canWB = false

variable {cfg : Config} {S : Session}

/-! ## What the store side of a session says -/

variable {h w k : ℕ} {busy : Bool} {front : List Packet} {U : LSQUnit}

variable (hinv : StoreInv cfg S.program S.answered h w busy front S.unit)

include hinv in
theorem handed_eq : S.handed cfg = w := by
  have hR := hinv.ring
  have htail : S.unit.storeTail = S.program.length % cfg.sqEntries := hR.tail
  have hle := hR.head_le
  have hle' := hR.le_tail
  have hfits := hR.fits
  unfold handed
  rw [htail, hinv.wb, slot_sub_slot hle' (by omega)]
  omega

include hinv in
theorem sentInOrder : S.SentInOrder cfg w := by
  refine ⟨front, hinv.sent, ?_⟩
  have hsending := hinv.sending
  generalize S.unit.port = P at hsending
  have hlast : ∀ {last : Packet}, busy = true → packetsAt cfg S.program w = front ++ [last] →
      ∃ s last, S.program[w]? = some s ∧ s.canWB = true ∧ s.packets cfg = front ++ [last] := by
    intro last hbusy hpkts
    rcases hinv.ring.current hbusy with ⟨s, hs, hcan⟩
    rw [StoreInv.packetsAt_eq hs] at hpkts
    exact ⟨s, last, hs, hcan, hpkts⟩
  cases hsending with
  | idle => exact .inl rfl
  | retry front pkt state hpkts _ => exact .inr (hlast rfl hpkts)
  | retryBoth => exact .inl rfl
  | pending front pkt hpkts _ => exact .inr (hlast rfl hpkts)

/-- What has been accepted are the first packets of the program. -/
theorem exists_rest (hsent : S.SentInOrder cfg k) :
    ∃ rest, S.program.flatMap (packets cfg) = S.unit.sent ++ rest := by
  rcases hsent with ⟨front, heq, hfront⟩
  have hsplit : S.program.flatMap (packets cfg)
      = (S.program.take k).flatMap (packets cfg) ++ (S.program.drop k).flatMap (packets cfg) := by
    rw [← flatMap_append, take_append_drop]
  rcases hfront with rfl | ⟨s, last, hs, -, hpkts⟩
  · refine ⟨(S.program.drop k).flatMap (packets cfg), ?_⟩
    rw [hsplit, heq, append_nil]
  · refine ⟨last :: (S.program.drop (k + 1)).flatMap (packets cfg), ?_⟩
    have hdrop : S.program.drop k = s :: S.program.drop (k + 1) :=
      drop_eq_getElem?_toList_append.trans (by
      rw [hs]
      rfl)
    rw [hsplit, heq, hdrop, flatMap_cons, hpkts]
    simp

include hinv in
theorem drained_of_storesToWB (hzero : S.unit.storesToWB = 0) :
    S.unit.sent = (S.program.filter fun s => s.canWB).flatMap (packets cfg) := by
  have hR := hinv.ring
  -- a store from `w` on that may be written back would be counted
  have hnone : ∀ p s, w ≤ p → S.program[p]? = some s → s.canWB = false := by
    intro p s hp hs
    rcases hR.entry_of_le hp hs with ⟨c, he, -, -⟩
    have hcount : S.unit.storesToWB = countSlots cfg.sqEntries SQEntry.waiting S.unit.storeQueue :=
      hR.storesToWB
    have hall := countSlots_eq_zero.1
      (by omega : countSlots cfg.sqEntries SQEntry.waiting S.unit.storeQueue = 0)
    have hwaiting := hall (p % cfg.sqEntries) (mod_lt p cfg.sq_pos)
    change (S.unit.ring.queue (p % cfg.sqEntries)).waiting = false at hwaiting
    rw [he] at hwaiting
    simpa [SQEntry.waiting, entry] using hwaiting
  have hbusy : busy = false := by
    cases hb : busy with
    | false => rfl
    | true =>
      rcases hR.current hb with ⟨s, hs, hcan⟩
      exact absurd hcan (by simp [hnone w s (le_refl w) hs])
  have hfront : front = [] := by
    have hsending := hinv.sending
    rw [hbusy] at hsending
    generalize S.unit.port = P at hsending
    cases hsending
    rfl
  have hfilter : S.program.filter (fun s => s.canWB) = S.program.take w := by
    calc
      S.program.filter (fun s => s.canWB)
          = (S.program.take w).filter (fun s => s.canWB)
          ++ (S.program.drop w).filter (fun s => s.canWB) := by
            rw [← filter_append, take_append_drop]
      _ = S.program.take w ++ [] := by
          congr 1
          · apply filter_eq_self.2
            intro s hs
            rcases mem_take_iff_getElem.1 hs with ⟨p, hp, rfl⟩
            exact hR.canWB p _ (getElem?_eq_getElem (by omega)) (by omega)
          · apply filter_eq_nil_iff.2
            intro s hs
            rcases mem_drop_iff_getElem.1 hs with ⟨p, hp, rfl⟩
            simp [hnone (w + p) _ (le_add_right w p) (getElem?_eq_getElem (by omega))]
      _ = S.program.take w := append_nil _
  rw [hinv.sent, hfront, hfilter, append_nil]

/-! ## Calls -/

theorem Quiet.of_frame (hquiet : S.Quiet) (hframe : Frame S.unit U) (hports : U.usedStorePorts = 0)
    (hlq : ∀ s ∈ program, s.inst.lqIdx = 0) {squashed : List Store} :
    Quiet ⟨U, program, squashed, answered⟩ where
  ports := hports
  stalled := hframe.stalled hquiet.stalled
  loads := hframe.loads.trans hquiet.loads
  loadTail := hframe.loadTail.trans hquiet.loadTail
  lqIdx := hlq

theorem Inv.moved (hinv : S.Inv cfg) (hapart : Apart S.unit U)
    (hstores : StoreInv cfg program answered h w busy front U)
    (hlq : ∀ s ∈ program, s.inst.lqIdx = 0) : Inv cfg ⟨U, program, S.squashed, answered⟩ :=
  ⟨⟨h, w, busy, front, hstores⟩,
    hinv.quiet.of_frame hapart.toFrame (hapart.ports.trans hinv.quiet.ports) hlq, hinv.squashed⟩

theorem insertStore_step (hinv : S.Inv cfg) (hallowed : S.Allowed cfg (.insertStore inst)) :
    ∃ S', S.step cfg (.insertStore inst) = some S' ∧ S'.Inv cfg := by
  rcases hinv.stores with ⟨h, w, busy, front, hstores⟩
  rcases hallowed with ⟨hfree, hmem, hseq⟩
  rcases insertStore_spec hstores hfree hmem hseq with ⟨U, hU, hframe, hstores'⟩
  refine ⟨_, congrArg (Option.map _) hU, hinv.moved hframe hstores' ?_⟩
  exact forall_mem_append.2 ⟨hinv.quiet.lqIdx, forall_mem_singleton.2 hinv.quiet.loadTail⟩

/-- Without loads the check for violations ends at once. -/
theorem checkViolations_quiet (hloads : U.loadTail = 0) :
    U.checkViolations cfg false 0 inst = some U := by
  unfold checkViolations
  have hpos := cfg.lq_pos
  cases hfuel : cfg.lqEntries with
  | zero => omega
  | succ fuel =>
    unfold checkViolationsFrom
    rw [if_pos hloads.symm]

theorem executeStore_step (hinv : S.Inv cfg) {p : ℕ} {acc : LSQUnit.StoreAcc}
    (hallowed : S.Allowed cfg (.executeStore p acc)) :
    ∃ S', S.step cfg (.executeStore p acc) = some S' ∧ S'.Inv cfg := by
  rcases hinv.stores with ⟨h, w, busy, front, hstores⟩
  rcases hallowed with ⟨s, hs, ha, hcan, hwrites⟩
  have hvalid : ∀ w, acc = .write w → w.Valid cfg s.inst := fun w hw => hwrites w (hw ▸ rfl)
  have hmem := mem_of_getElem? hs
  have hslot : s.slot = p % cfg.sqEntries := by
    rw [slot, hstores.ring.placed p s hs]
    rfl
  rcases entry_of_not_canWB hstores.ring hs hcan with ⟨hwp, hentry, -⟩
  have hne := stores_ne_zero hstores.ring hs hwp
  have hreturns : ∃ U, S.unit.executeStore cfg s.slot acc = some U ∧ Apart S.unit U := by
    rw [hslot]
    cases acc with
    | delayed => exact ⟨S.unit, if_neg hne, Apart.refl _⟩
    | predicatedFalse => exact ⟨S.unit, if_neg hne, Apart.refl _⟩
    | fault =>
      refine ⟨S.unit, ?_, Apart.refl _⟩
      unfold executeStore
      rw [if_neg hne]
      rw [hentry, if_pos (entry_size_of_none ha)]
    | write a =>
      have hcheck : checkViolations cfg false 0 (s.inst.access a.req)
          (storeWritten cfg S.unit (p % cfg.sqEntries) (s.execute (.write a))) = some _ :=
        checkViolations_quiet
          (U := storeWritten cfg S.unit (p % cfg.sqEntries) (s.execute (.write a)))
          hinv.quiet.loadTail
      rw [executeStore_write hentry hne ha hcan (hstores.ring.fresh s hmem) (hvalid a rfl),
        hinv.quiet.lqIdx s hmem, hcheck]
      exact ⟨_, ite_self _, ⟨⟨rfl, rfl, id⟩, rfl⟩⟩
  rcases hreturns with ⟨U, hU, hframe⟩
  have hstores' := executeStore_spec hstores hs ha hcan hvalid (hslot ▸ hU)
  refine ⟨{ S with unit := U, program := S.program.set p (s.execute acc) }, ?_,
    hinv.moved hframe hstores' ?_⟩
  · change S.program[p]?.bind _ = _
    rw [hs]
    exact congrArg (Option.map _) hU
  · intro t ht
    rcases mem_or_eq_of_mem_set ht with hmem' | rfl
    · exact hinv.quiet.lqIdx t hmem'
    · have hinst : (s.execute acc).inst = s.inst := by
        cases acc <;> rfl
      rw [hinst]
      exact hinv.quiet.lqIdx s hmem

theorem commitStores_step (hinv : S.Inv cfg) (youngest : ℕ) :
    ∃ S', S.step cfg (.commitStores youngest) = some S' ∧ S'.Inv cfg := by
  rcases hinv.stores with ⟨h, w, busy, front, hstores⟩
  rcases commitStores_spec hstores youngest with ⟨U, hU, hframe, hstores'⟩
  refine ⟨_, congrArg (Option.map _) hU, hinv.moved hframe hstores' ?_⟩
  intro t ht
  rcases mem_map.1 ht with ⟨s, hs, rfl⟩
  have hinst : (s.commit youngest).inst = s.inst := by
    unfold commit
    split <;> rfl
  rw [hinst]
  exact hinv.quiet.lqIdx s hs

/-- A function that hands stores over, with the answers that the port gives; they are not part of
the store side. -/
theorem returns_step (hinv : S.Inv cfg) (answers : List Bool) {f : LSQUnit → Option LSQUnit}
    {asks : ℕ → LSQUnit → Prop}
    (hf : ∀ {h w busy front U}, StoreInv cfg S.program S.answered h w busy front U →
      LSQUnit.Returns cfg S.program S.answered w (asks w U) U (f U))
    (hports : ∀ {U U'}, f U = some U' → U.usedStorePorts = 0 → U'.usedStorePorts = 0) :
    ∃ S', ((f { S.unit with answers := answers }).map fun U => { S with unit := U }) = some S'
      ∧ S'.Inv cfg ∧ (asks (S.handed cfg) { S.unit with answers := answers } →
        answers.headD false = true → S.Further cfg S') := by
  rcases hinv.stores with ⟨h, w, busy, front, hstores⟩
  rcases hf (U := { S.unit with answers := answers }) { hstores with } with
    ⟨U, h', w', busy', front', hU, hframe, hstores', hle, hfurther⟩
  refine ⟨{ S with unit := U }, congrArg (Option.map _) hU, ⟨⟨h', w', busy', front', hstores'⟩, ?_,
    hinv.squashed⟩, ?_⟩
  · exact hinv.quiet.of_frame { hframe with } (hports hU hinv.quiet.ports) hinv.quiet.lqIdx
  · intro hasks haccepts
    unfold Further
    rw [handed_eq hstores, handed_eq (S := { S with unit := U }) hstores']
    rw [handed_eq hstores] at hasks
    rcases lt_or_eq_of_le hle with hlt | rfl
    · exact .inl hlt
    · exact .inr ⟨rfl, (hfurther hasks haccepts).resolve_left (lt_irrefl w)⟩

theorem writebackStores_step (hinv : S.Inv cfg) (answers : List Bool) :
    ∃ S', S.step cfg (.writebackStores answers) = some S' ∧ S'.Inv cfg
      ∧ (S.Accepted cfg (.writebackStores answers) → S.Further cfg S') := by
  rcases returns_step hinv answers writebackStores_spec writebackStores_ports with
    ⟨S', hS', hinv', hfurther⟩
  refine ⟨S', hS', hinv', ?_⟩
  intro haccepted
  match answers, haccepted with
  | true :: _, hasks => exact hfurther { hasks with } rfl

theorem recvRetry_step (hinv : S.Inv cfg) (answers : List Bool) :
    ∃ S', S.step cfg (.recvRetry answers) = some S' ∧ S'.Inv cfg
      ∧ (S.Accepted cfg (.recvRetry answers) → S.Further cfg S') := by
  rcases returns_step hinv answers recvRetry_spec recvRetry_ports with ⟨S', hS', hinv', hfurther⟩
  refine ⟨S', hS', hinv', ?_⟩
  intro haccepted
  match answers, haccepted with
  | true :: _, hblocked => exact hfurther hblocked rfl

include hinv in
/-- An accepted packet that is not a low one belongs to a store that has been handed over. -/
theorem handedOver_of_sent {pkt : Packet} (hpkt : pkt ∈ S.unit.sent) (hpart : pkt.part ≠ .low) :
    ∃ p s, S.program[p]? = some s ∧ p < w ∧ pkt ∈ s.packets cfg := by
  rcases sentInOrder hinv with ⟨front', heq, hfront⟩
  rw [heq, mem_append] at hpkt
  rcases hpkt with hpkt | hpkt
  · rcases mem_flatMap.1 hpkt with ⟨s, hs, hmem⟩
    rcases mem_take_iff_getElem.1 hs with ⟨p, hp, rfl⟩
    exact ⟨p, _, getElem?_eq_getElem (by omega), by omega, hmem⟩
  · rcases hfront with rfl | ⟨s, last, -, -, hpkts⟩
    · exact absurd hpkt not_mem_nil
    · exact absurd (part_of_front hpkts hpkt) hpart

theorem completeStore_step (hinv : S.Inv cfg) (hallowed : S.Allowed cfg (.completeStore k)) :
    ∃ S', S.step cfg (.completeStore k) = some S' ∧ S'.Inv cfg := by
  rcases hinv.stores with ⟨h, w, busy, front, hstores⟩
  rcases hallowed with ⟨pkt, hpkt, hpart, hans⟩
  rcases handedOver_of_sent hstores (mem_of_getElem? hpkt) hpart with ⟨p, s, hs, hpw, hmem⟩
  rcases seqNum_of_mem_packets hmem with ⟨hseq, hidx⟩
  have hslot : pkt.idx = p % cfg.sqEntries := by
    rw [hidx, slot, hstores.ring.placed p s hs]
    rfl
  have hne : s.packets cfg ≠ [] := ne_nil_of_mem hmem
  rcases hstores.ring.unanswered p s hs hpw hne (hseq ▸ hans) with ⟨hhp, hopen⟩
  rcases completeStore_spec hstores.ring hs hhp hpw hopen (subset_cons_self pkt.seqNum S.answered)
    (.inr (by rw [← hseq]; exact mem_cons_self)) with ⟨U, h', hU, hsame, hwb, hring⟩
  have hstores' := hstores.change hring hsame.port hsame.sent hwb rfl (fun _ => rfl)
  refine ⟨{ S with unit := U, answered := pkt.seqNum :: S.answered }, ?_,
    hinv.moved hsame.toApart hstores' hinv.quiet.lqIdx⟩
  change S.unit.sent[k]?.bind _ = _
  rw [hpkt]
  change Option.map _ (S.unit.completeStore cfg pkt.idx) = _
  rw [hslot, hU]
  rfl

theorem squash_step (hinv : S.Inv cfg) (n : ℕ) :
    ∃ S', S.step cfg (.squash n) = some S' ∧ S'.Inv cfg := by
  rcases hinv.stores with ⟨h, w, busy, front, hstores⟩
  have hloads : squashLoads cfg n S.unit.loads S.unit = some S.unit := by
    rw [hinv.quiet.loads]
    rfl
  have hviolator : StoreInv cfg S.program S.answered h w busy front
      { S.unit with memDepViolator := S.unit.memDepViolator.filter (· ≤ n) } :=
    { hstores with }
  rcases squashStores_spec (n := n) hviolator (le_refl _) with ⟨hsome, hspec⟩
  rcases Option.isSome_iff_exists.1 (hsome hinv.quiet.stalled) with ⟨U, hU⟩
  rcases hspec U hU with ⟨hapart, hstores'⟩
  have hsquash : S.unit.squash cfg n = some U := by
    unfold squash
    rw [hloads]
    exact hU
  refine ⟨_, congrArg (Option.map _) hsquash, ⟨⟨h, w, busy, front, hstores'⟩, ?_, ?_⟩⟩
  · constructor
    · exact hapart.ports.trans hinv.quiet.ports
    · exact hapart.stalled hinv.quiet.stalled
    · exact hapart.loads.trans hinv.quiet.loads
    · exact hapart.loadTail.trans hinv.quiet.loadTail
    · intro s hs
      exact hinv.quiet.lqIdx s ((List.rdropWhile_prefix _ _).subset hs)
  · refine forall_mem_append.2 ⟨hinv.squashed, fun s hs => ?_⟩
    have := mem_rtakeWhile_imp hs
    simp only [isSquashed, Bool.and_eq_true, Bool.not_eq_eq_eq_not, Bool.not_true] at this
    exact this.2

/-- From a state of the invariant every call that the callers may make returns, to a state of the
invariant. -/
theorem Inv.step (hinv : S.Inv cfg) (hallowed : S.Allowed cfg c) :
    ∃ S', S.step cfg c = some S' ∧ S'.Inv cfg := by
  cases c with
  | insertStore inst => exact insertStore_step hinv hallowed
  | executeStore p acc => exact executeStore_step hinv hallowed
  | commitStores youngest => exact commitStores_step hinv youngest
  | writebackStores answers =>
    rcases writebackStores_step hinv answers with ⟨S', hS', hinv', -⟩
    exact ⟨S', hS', hinv'⟩
  | recvRetry answers =>
    rcases recvRetry_step hinv answers with ⟨S', hS', hinv', -⟩
    exact ⟨S', hS', hinv'⟩
  | completeStore k => exact completeStore_step hinv hallowed
  | squash n => exact squash_step hinv n

theorem Inv.proceeds (hinv : S.Inv cfg) {S' : Session} (haccepted : S.Accepted cfg c)
    (hstep : S.step cfg c = some S') : S.Further cfg S' := by
  have hother : ∀ {S''}, S.step cfg c = some S'' ∧ S''.Inv cfg
      ∧ (S.Accepted cfg c → S.Further cfg S'') → S.Further cfg S' := by
    rintro S'' ⟨hS'', -, hfurther⟩
    have heq : S'' = S' := Option.some.inj (hS''.symm.trans hstep)
    exact heq ▸ hfurther haccepted
  cases c with
  | writebackStores answers =>
    rcases writebackStores_step hinv answers with ⟨S'', hS''⟩
    exact hother hS''
  | recvRetry answers =>
    rcases recvRetry_step hinv answers with ⟨S'', hS''⟩
    exact hother hS''
  | _ => exact haccepted.elim

theorem Inv.bookkeeping (hinv : S.Inv cfg) : S.Bookkeeping cfg := by
  rcases hinv.stores with ⟨h, w, busy, front, hstores⟩
  have hR := hstores.ring
  have hhead : S.unit.storeHead = h % cfg.sqEntries := hR.head
  have htail : S.unit.storeTail = S.program.length % cfg.sqEntries := hR.tail
  have hcount : S.unit.stores = (S.program.length : ℤ) - h := hR.stores
  have hle := hR.head_le
  have hle' := hR.le_tail
  have hdistance : ((S.unit.storeTail : ℤ) - S.unit.storeHead) % cfg.sqEntries =
      (S.program.length : ℤ) - h := by
    rw [hhead, htail]
    exact slot_sub_slot (by omega) hR.fits
  refine {
    stores := hcount.trans hdistance.symm
    circular := ?_
    storesToWB := hR.storesToWB
    held := ?_
    squashed := hinv.squashed
    handed := (handed_eq hstores).symm ▸ hstores.wb
    committed := ?_
    sent := (handed_eq hstores).symm ▸ sentInOrder hstores
    once := ?_
    drained := drained_of_storesToWB hstores
    returns := ?_
    ports := hinv.quiet.ports
    proceeds := fun _ _ => hinv.proceeds }
  · have hfits := hR.fits
    rw [hdistance, hstores.wb, hhead, slot_sub_slot hle (by omega)]
    omega
  · intro p s hs hp
    rcases hR.entries p s (by omega) hs with ⟨c, d, he, -⟩
    have hentry : S.unit.storeQueue (p % cfg.sqEntries) = s.entry cfg c d := he
    have hseq : (s.dynInst cfg c).seqNum = s.inst.seqNum := dynInst_seqNum ..
    rw [hentry]
    exact ⟨congrArg some hseq, rfl⟩
  · rw [handed_eq hstores]
    intro s hs
    rcases mem_take_iff_getElem.1 hs with ⟨p, hp, rfl⟩
    exact hR.canWB p _ (getElem?_eq_getElem (by omega)) (by omega)
  · rcases exists_rest (sentInOrder hstores) with ⟨rest, hrest⟩
    have hnodup : ((S.program.flatMap (packets cfg)).map fun pkt => (pkt.seqNum, pkt.part)).Nodup :=
      nodup_packets hR.sorted
    rw [hrest, map_append] at hnodup
    exact (nodup_append.1 hnodup).1
  · intro c hc
    rcases hinv.step hc with ⟨S', hS', -⟩
    rw [hS']
    rfl

theorem inv_start (cfg : Config) : Inv cfg {} := by
  have hring : Ring cfg [] [] 0 0 false ({} : LSQUnit).ring := {
    head := (zero_mod _).symm
    tail := (zero_mod _).symm
    head_le := le_refl 0
    le_tail := le_refl 0
    fits := by simpa using cfg.sq_pos
    stores := rfl
    storesToWB := (congrArg Nat.cast (countSlots_eq_zero.2 fun _ _ => rfl)).symm
    entries := fun p s _ hs => by simp at hs
    free := fun _ _ _ => rfl
    canWB := fun p s hs => by simp at hs
    current := nofun
    unanswered := fun p s hs => by simp at hs
    sorted := List.Pairwise.nil
    placed := fun p s hs => by simp at hs
    fresh := forall_mem_nil _
    valid := forall_mem_nil _ }
  refine ⟨⟨0, 0, false, [], ?_⟩, ⟨rfl, rfl, rfl, rfl, forall_mem_nil _⟩, forall_mem_nil _⟩
  exact StoreInv.of_idle hring (zero_mod _).symm rfl rfl

/-- Along every sequence of calls that keeps to the promises of the callers, the store queue is in
order, every call returns, the port accepts the packets of the stores once each and in program
order, and it is given a packet whenever it is asked and accepts. -/
theorem storeQueue_bookkeeping (cfg : Config) (calls : List StoreCall)
    (hallowed : Throughout (Session.step cfg) (Session.Allowed cfg) {} calls) :
    Always (Session.step cfg) (Session.Bookkeeping cfg) {} calls := by
  have hstep : ∀ S c S', Session.Inv cfg S → S.Allowed cfg c → S.step cfg c = some S' →
      Session.Inv cfg S' := by
    intro S c S' hS hc hstep
    rcases hS.step hc with ⟨S'', hS'', hinv⟩
    have heq : S'' = S' := Option.some.inj (hS''.symm.trans hstep)
    exact heq ▸ hinv
  exact Always.of_throughout (fun S hS => hS.bookkeeping) hstep (inv_start cfg) hallowed

/-- Two stores and one cache port. The first store is split: its second half waits for the port, is
refused and sent by the retry; the second store is squashed before it commits. -/
theorem storeQueue_bookkeeping_split :
    Always (Session.step ⟨2, 3, 1, 0, false, true, by decide, by decide⟩)
      (Session.Bookkeeping ⟨2, 3, 1, 0, false, true, by decide, by decide⟩) {}
      [.insertStore { seqNum := 1 }, .insertStore { seqNum := 2 },
        .executeStore 1
        (.write { req := ⟨64, 64, 4, false, false, false, false⟩, data := [1, 2, 3, 4] }),
        .executeStore 0 (.write {
          req := ⟨62, 62, 4, false, false, false, false⟩
          sreqLow := some ⟨62, 62, 2, false, false, false, false⟩
          sreqHigh := some ⟨64, 64, 2, false, false, false, false⟩
          data := [5, 6, 7, 8] }),
        .commitStores 1, .writebackStores [true], .writebackStores [false], .recvRetry [true],
        .completeStore 1, .squash 1, .insertStore { seqNum := 3 }] :=
  storeQueue_bookkeeping _ _ (by decide)

end Session

end EnocGem5.O3.LSQ

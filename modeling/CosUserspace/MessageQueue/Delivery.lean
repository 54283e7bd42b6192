import CosUserspace.Library.Ring
import CosUserspace.MessageQueue.Channel

/-!
# Delivery

With `H` messages produced and `T` consumed, `head` and `tail` are `H` and `T` modulo `2 ^ 32` and at most `_MQ_DATA_SIZE` messages wait. As long as every slot is written when no waiting message lies in it, the lord consumes a prefix of what the kernel produced. Since `2 ^ 32` is `32` modulo `511`, the slot of the counter `h` past a wrap is the slot of the counter `h - 32` before it, and the room test does not see that: just past a wrap only `32` messages may wait.
-/

namespace CosUserspace

namespace Channel

def slot (n : Nat) : Fin mqDataSize := CosMessageQueue.index (UInt32.ofNat n)

theorem slot_val (n : Nat) : (slot n).val = n % 2 ^ 32 % 511 := rfl

/-- While `head` is below `32` fewer than `32` messages are unread. -/
def WrapRoom (mq : CosMessageQueue) : Prop :=
  mq.head.toNat < 32 → (mq.head - mq.tail).toNat < 32

theorem toNat_sub_ofNat {h t : Nat} (hle : t ≤ h) (hlt : h - t < 2 ^ 32) :
    (UInt32.ofNat h - UInt32.ofNat t).toNat = h - t := by
  rw [UInt32.toNat_sub, UInt32.toNat_ofNat', UInt32.toNat_ofNat']
  omega

/-- Among the writes that the room test admits, `WrapRoom` singles out those that spare the waiting messages. -/
theorem slotFree_iff {h t : Nat} (hle : t ≤ h) (hroom : h - t < 511) :
    SlotFree slot h t ↔ (h % 2 ^ 32 < 32 → h - t < 32) := by
  constructor
  · intro hfree hwrapped
    by_contra hmany
    refine hfree (h - 32) (by omega) (by omega) (Fin.ext ?_)
    rw [slot_val, slot_val]
    omega
  · intro hwrap n hn hlt hslot
    have heq := congrArg Fin.val hslot
    rw [slot_val, slot_val] at heq
    -- either no wrap lies between the two counters, or exactly one does
    rcases (by omega : h % 2 ^ 32 = n % 2 ^ 32 + (h - n) ∨
        h % 2 ^ 32 + 2 ^ 32 = n % 2 ^ 32 + (h - n)) with hsame | hcrossed
    · generalize n % 2 ^ 32 = a at hsame heq
      omega
    · have hsmall : h % 2 ^ 32 < 511 := by omega
      rw [Nat.mod_eq_of_lt hsmall] at heq
      have hdiv := Nat.div_add_mod (n % 2 ^ 32) 511
      rw [heq] at hdiv
      -- `511 * q + (h - n) = 2 ^ 32` leaves `h - n = 32`
      have hdistance : h - n = 32 := by omega
      exact absurd (hwrap (by omega)) (by omega)

/-- What the lord holds at each access: a message to take, and then the one it has read. -/
def ConsumerAgrees (produced : List CosMsg) (taken : Nat) : ConsumerPc → Prop
  | .loop => True
  | .entered | .reading => taken < produced.length
  | .advancing ret => ∃ hmore : taken < produced.length, ret = produced[taken]

/-- A message that is written but not published lies in the slot of the next counter. -/
def ProducerAgrees (data : Fin mqDataSize → CosMsg) (produced taken : Nat) : ProducerPc → Prop
  | .idle => True
  | .wrote m => data (slot produced) = m ∧ produced - taken < mqDataSize

theorem ConsumerAgrees.publish {produced : List CosMsg} {taken : Nat} {pc : ConsumerPc} (m : CosMsg)
    (hagrees : ConsumerAgrees produced taken pc) : ConsumerAgrees (produced ++ [m]) taken pc := by
  have hlonger : produced.length < (produced ++ [m]).length := by simp
  cases pc with
  | loop => trivial
  | entered | reading => exact Nat.lt_trans hagrees hlonger
  | advancing ret =>
    obtain ⟨hmore, hret⟩ := hagrees
    exact ⟨Nat.lt_trans hmore hlonger, by rw [List.getElem_append_left hmore]; exact hret⟩

theorem ProducerAgrees.take {data : Fin mqDataSize → CosMsg} {produced taken : Nat} {pc : ProducerPc}
    (hagrees : ProducerAgrees data produced taken pc) : ProducerAgrees data produced (taken + 1) pc := by
  cases pc with
  | idle => trivial
  | wrote m => exact ⟨hagrees.1, Nat.lt_of_le_of_lt (by omega) hagrees.2⟩

structure Inv (s : Channel) : Prop where
  head_eq : s.mq.head = UInt32.ofNat s.produced.length
  tail_eq : s.mq.tail = UInt32.ofNat s.consumed.length
  bounded : s.produced.length ≤ s.consumed.length + mqDataSize
  ring : RingHolds slot s.mq.data s.produced s.consumed.length
  delivered : s.consumed <+: s.produced
  producer : ProducerAgrees s.mq.data s.produced.length s.consumed.length s.producer
  consumer : ConsumerAgrees s.produced s.consumed.length s.consumer

theorem Inv.init (data : Fin mqDataSize → CosMsg) : Inv (init data) where
  head_eq := rfl
  tail_eq := rfl
  bounded := Nat.zero_le _
  ring := RingHolds.empty
  delivered := List.prefix_refl _
  producer := trivial
  consumer := trivial

theorem Inv.unread {s : Channel} (hinv : Inv s) :
    (s.mq.head - s.mq.tail).toNat = s.produced.length - s.consumed.length := by
  have hbounded := hinv.bounded
  rw [hinv.head_eq, hinv.tail_eq, toNat_sub_ofNat hinv.ring.taken_le]
  simp only [mqDataSize] at hbounded
  omega

theorem Inv.empty_iff {s : Channel} (hinv : Inv s) :
    s.mq.empty = true ↔ s.consumed.length = s.produced.length := by
  have hbounded := hinv.bounded
  have hle := hinv.ring.taken_le
  simp only [mqDataSize] at hbounded
  rw [CosMessageQueue.empty, beq_iff_eq, hinv.head_eq, hinv.tail_eq, ← UInt32.toNat_inj,
    UInt32.toNat_ofNat', UInt32.toNat_ofNat']
  omega

theorem Inv.slotFree_iff {s : Channel} (hinv : Inv s) (hroom : s.mq.Room) :
    SlotFree slot s.produced.length s.consumed.length ↔ WrapRoom s.mq := by
  have hunread := hinv.unread
  rw [CosMessageQueue.Room, hunread] at hroom
  rw [Channel.slotFree_iff hinv.ring.taken_le hroom, WrapRoom, hunread, hinv.head_eq, UInt32.toNat_ofNat']

/-! ### The steps -/

theorem Inv.write {s : Channel} {m : CosMsg} (hinv : Inv s) (hroom : s.mq.Room) (hwrap : WrapRoom s.mq) :
    Inv { s with mq := s.mq.writeSlot m, producer := .wrote m } := by
  have hslot : CosMessageQueue.index s.mq.head = slot s.produced.length := by
    rw [hinv.head_eq, slot]
  have hunread := hinv.unread
  refine ⟨hinv.head_eq, hinv.tail_eq, hinv.bounded, ?_, hinv.delivered, ?_, hinv.consumer⟩
  · have hring := hinv.ring.write ((hinv.slotFree_iff hroom).mpr hwrap) m
    simpa only [CosMessageQueue.writeSlot, hslot] using hring
  · refine ⟨?_, ?_⟩
    · simp only [CosMessageQueue.writeSlot, hslot, Function.update_self]
    · rw [CosMessageQueue.Room, hunread] at hroom
      exact hroom

theorem Inv.publish {s : Channel} {m : CosMsg} (hinv : Inv s) (hwrote : s.producer = .wrote m) :
    Inv
      { s with
        mq := { s.mq with head := s.mq.head + 1 }
        producer := .idle
        produced := s.produced ++ [m] } := by
  obtain ⟨hslot, hroom⟩ : s.mq.data (slot s.produced.length) = m ∧
      s.produced.length - s.consumed.length < mqDataSize := by
    simpa only [hwrote, ProducerAgrees] using hinv.producer
  refine ⟨?_, hinv.tail_eq, ?_, hinv.ring.publish hslot, ?_, trivial, hinv.consumer.publish m⟩
  · simp only [hinv.head_eq, List.length_append, List.length_singleton]
    exact (UInt32.ofNat_add ..).symm
  · change (s.produced ++ [m]).length ≤ s.consumed.length + mqDataSize
    rw [List.length_append, List.length_singleton]
    omega
  · exact hinv.delivered.trans (List.prefix_append _ _)

theorem Inv.advance {s : Channel} {ret : CosMsg} (hinv : Inv s)
    (hmore : s.consumed.length < s.produced.length) (hret : ret = s.produced[s.consumed.length]) :
    Inv ({ s with mq := { s.mq with tail := s.mq.tail + 1 } }.deliver ret) := by
  have hlength : (s.consumed ++ [ret]).length = s.consumed.length + 1 := by simp
  refine ⟨hinv.head_eq, ?_, ?_, ?_, take_concat_prefix hinv.delivered hmore hret.symm, ?_, trivial⟩
  · simp only [deliver, hinv.tail_eq, hlength]
    exact (UInt32.ofNat_add ..).symm
  · have hbounded := hinv.bounded
    simp only [deliver, hlength]
    omega
  · simpa only [deliver, hlength] using hinv.ring.take hmore
  · simpa only [deliver, hlength] using hinv.producer.take

theorem Inv.consume {s : Channel} (hinv : Inv s) : Inv s.consume := by
  have hempty := hinv.empty_iff
  have hagrees := hinv.consumer
  unfold Channel.consume
  cases hpc : s.consumer with
  | loop =>
    cases htest : s.mq.empty with
    | true => simpa using hinv
    | false =>
      have hmore : s.consumed.length < s.produced.length := by
        refine Nat.lt_of_le_of_ne hinv.ring.taken_le fun heq => ?_
        rw [hempty.mpr heq] at htest
        cases htest
      simpa using { hinv with consumer := hmore }
  | entered =>
    -- the queue cannot have become empty since the test of the loop
    have hmore : s.consumed.length < s.produced.length := by simpa only [hpc, ConsumerAgrees] using hagrees
    have htest : s.mq.empty = false := by
      rw [← Bool.not_eq_true, hempty]
      exact Nat.ne_of_lt hmore
    simpa [htest] using { hinv with consumer := hmore }
  | reading =>
    have hmore : s.consumed.length < s.produced.length := by simpa only [hpc, ConsumerAgrees] using hagrees
    refine { hinv with consumer := ⟨hmore, ?_⟩ }
    rw [hinv.tail_eq]
    exact hinv.ring.next hmore
  | advancing ret =>
    obtain ⟨hmore, hret⟩ : ∃ hmore : s.consumed.length < s.produced.length,
        ret = s.produced[s.consumed.length] := by
      simpa only [hpc, ConsumerAgrees] using hagrees
    exact hinv.advance hmore hret

theorem Inv.step {s t : Channel} {a : Action} (hinv : Inv s) (hstep : Step s a t)
    (hwrap : ∀ m, a = .write m → WrapRoom s.mq) : Inv t := by
  cases hstep with
  | write _ hroom => exact hinv.write hroom (hwrap _ rfl)
  | publish hwrote => exact hinv.publish hwrote
  | consume => exact hinv.consume

/-! ### Runs -/

/-- A step whose slot write, if it is one, finds fewer than `32` messages unread while `head` is below `32`. -/
def CarefulStep (s : Channel) (a : Action) (t : Channel) : Prop :=
  Step s a t ∧ ∀ m, a = .write m → WrapRoom s.mq

/-- In every interleaving of such steps, of any length, the lord has consumed a prefix of what the kernel has produced. -/
theorem consumed_prefix_produced {data : Fin mqDataSize → CosMsg} {actions : List Action} {s : Channel}
    (hrun : Runs CarefulStep (init data) actions s) : s.consumed <+: s.produced :=
  (hrun.invariant (P := Inv) (Inv.init data) fun _ _ _ hinv hstep => hinv.step hstep.1 hstep.2).delivered

/-- Three messages. The kernel writes the second one while the lord reads the first, and has the third one written but not published when the lord finishes the first. -/
theorem consumed_prefix_produced_interleaved :
    ∃ s, Runs CarefulStep (init fun _ => default)
        [.write ⟨7, 3, 1⟩, .publish, .consume, .write ⟨8, 3, 2⟩, .consume, .publish, .consume, .write ⟨7, 5, 3⟩,
          .consume, .consume, .consume, .publish, .consume, .consume] s ∧
      s.consumed = [⟨7, 3, 1⟩, ⟨8, 3, 2⟩] ∧ s.produced = [⟨7, 3, 1⟩, ⟨8, 3, 2⟩, ⟨7, 5, 3⟩] ∧
      s.consumed <+: s.produced := by
  have hfirst := (((Runs.nil (R := CarefulStep) (s := init fun _ => default)).snoc
    ⟨.write (m := ⟨7, 3, 1⟩) rfl (by decide : 0 < 511), fun _ _ _ => by decide⟩).snoc
    ⟨.publish rfl, by simp⟩).snoc ⟨.consume, by simp⟩
  have hsecond := (((hfirst.snoc
    ⟨.write (m := ⟨8, 3, 2⟩) rfl (by decide : 1 < 511), fun _ _ _ => by decide⟩).snoc ⟨.consume, by simp⟩).snoc
    ⟨.publish rfl, by simp⟩).snoc ⟨.consume, by simp⟩
  have hthird := ((hsecond.snoc
    ⟨.write (m := ⟨7, 5, 3⟩) rfl (by decide : 2 < 511), fun _ _ _ => by decide⟩).snoc ⟨.consume, by simp⟩).snoc
    ⟨.consume, by simp⟩
  have hrun := (((hthird.snoc ⟨.consume, by simp⟩).snoc ⟨.publish rfl, by simp⟩).snoc ⟨.consume, by simp⟩).snoc
    ⟨.consume, by simp⟩
  exact ⟨_, hrun, rfl, rfl, consumed_prefix_produced hrun⟩

/-! ### Past the wrap

Without that restriction a run of more than `2 ^ 32` messages loses one: the message of the counter `2 ^ 32 - 1` waits in slot `31` when the kernel writes the message of the counter `2 ^ 32 + 31`. -/

def afterProduce (s : Channel) (m : CosMsg) : Channel :=
  { s with
    mq := { s.mq.writeSlot m with head := s.mq.head + 1 }
    producer := .idle
    produced := s.produced ++ [m] }

def afterConsume (s : Channel) : Channel :=
  { s with
    mq := { s.mq with tail := s.mq.tail + 1 }
    consumer := .loop
    consumed := s.consumed ++ [s.mq.data (CosMessageQueue.index s.mq.tail)] }

theorem runs_afterProduce {s : Channel} (m : CosMsg) (hidle : s.producer = .idle) (hroom : s.mq.Room) :
    Runs Step s ([.write m] ++ [.publish]) (s.afterProduce m) :=
  (Runs.nil.snoc (Step.write hidle hroom)).snoc (Step.publish rfl)

theorem runs_afterConsume {s : Channel} (hloop : s.consumer = .loop) (hsome : s.mq.empty = false) :
    ∃ actions, Runs Step s actions s.afterConsume := by
  have hfour : s.consume.consume.consume.consume = s.afterConsume := by
    simp [Channel.consume, deliver, afterConsume, hloop, hsome]
  exact ⟨_, hfour ▸ (((Runs.nil.snoc Step.consume).snoc Step.consume).snoc Step.consume).snoc Step.consume⟩

/-- `n` messages equal to `m` have been produced and consumed, and the messages `waiting` after them have been produced. -/
structure Backlog (m : CosMsg) (n : Nat) (waiting : List CosMsg) (s : Channel) : Prop where
  idle : s.producer = .idle
  loop : s.consumer = .loop
  head_eq : s.mq.head = UInt32.ofNat (n + waiting.length)
  tail_eq : s.mq.tail = UInt32.ofNat n
  produced_eq : s.produced = List.replicate n m ++ waiting
  consumed_eq : s.consumed = List.replicate n m

namespace Backlog

variable {m : CosMsg} {n : Nat} {waiting : List CosMsg} {s : Channel}

theorem unread (h : Backlog m n waiting s) (hlength : waiting.length < 2 ^ 32) :
    (s.mq.head - s.mq.tail).toNat = waiting.length := by
  rw [h.head_eq, h.tail_eq, toNat_sub_ofNat (Nat.le_add_right n _) (by omega)]
  exact Nat.add_sub_cancel_left ..

theorem produce (h : Backlog m n waiting s) (next : CosMsg) :
    Backlog m n (waiting ++ [next]) (s.afterProduce next) where
  idle := rfl
  loop := h.loop
  head_eq := by
    simp only [afterProduce, h.head_eq, List.length_append, List.length_singleton, ← Nat.add_assoc]
    exact (UInt32.ofNat_add ..).symm
  tail_eq := h.tail_eq
  produced_eq := by simp [afterProduce, h.produced_eq]
  consumed_eq := h.consumed_eq

theorem runs_produce (h : Backlog m n waiting s) (next : CosMsg) (hroom : waiting.length < mqDataSize) :
    Runs Step s ([.write next] ++ [.publish]) (s.afterProduce next) := by
  apply runs_afterProduce next h.idle
  rw [CosMessageQueue.Room, h.unread (Nat.lt_trans hroom (by decide))]
  exact hroom

theorem fill (h : Backlog m n [] s) (ms : List CosMsg) (hroom : ms.length ≤ mqDataSize) :
    ∃ actions t, Runs Step s actions t ∧ Backlog m n ms t := by
  induction ms using List.reverseRecOn with
  | nil => exact ⟨[], s, .nil, h⟩
  | append_singleton ms next ih =>
    rw [List.length_append, List.length_singleton] at hroom
    obtain ⟨actions, t, hrun, hbacklog⟩ := ih (by omega)
    exact ⟨_, _, hrun.append (hbacklog.runs_produce next (by omega)), hbacklog.produce next⟩

theorem relay (h : Backlog m n [] s) : ∃ actions t, Runs Step s actions t ∧ Backlog m (n + 1) [] t := by
  have hproduced := h.produce m
  have hsome : (s.afterProduce m).mq.empty = false := by
    rw [← Bool.not_eq_true, CosMessageQueue.empty, beq_iff_eq, hproduced.head_eq, hproduced.tail_eq,
      ← UInt32.toNat_inj, UInt32.toNat_ofNat', UInt32.toNat_ofNat']
    simp only [List.nil_append, List.length_singleton]
    omega
  obtain ⟨actions, hconsume⟩ := runs_afterConsume hproduced.loop hsome
  refine ⟨_, _, (h.runs_produce m (by decide)).append hconsume, ?_⟩
  have hslot : s.mq.tail = s.mq.head := by rw [h.head_eq, h.tail_eq]; rfl
  constructor
  · rfl
  · rfl
  · exact hproduced.head_eq
  · simp only [afterConsume, hproduced.tail_eq]
    exact (UInt32.ofNat_add ..).symm
  · simp [afterConsume, hproduced.produced_eq, List.replicate_succ']
  · simp [afterConsume, afterProduce, CosMessageQueue.writeSlot, hslot, h.consumed_eq, List.replicate_succ']

theorem reached (m : CosMsg) (data : Fin mqDataSize → CosMsg) (n : Nat) :
    ∃ actions s, Runs Step (init data) actions s ∧ Backlog m n [] s := by
  induction n with
  | zero => exact ⟨[], init data, .nil, rfl, rfl, rfl, rfl, rfl, rfl⟩
  | succ n ih =>
    obtain ⟨actions, s, hrun, hbacklog⟩ := ih
    obtain ⟨actions', t, hrelay, hnext⟩ := hbacklog.relay
    exact ⟨_, t, hrun.append hrelay, hnext⟩

end Backlog

/-- Two counters at a distance of `32` that share their slot: the later message is delivered for the earlier one. -/
theorem delivery_fails_of_slot_eq {n : Nat} (hslot : slot n = slot (n + 32)) :
    ∃ actions s, Runs Step (init fun _ => default) actions s ∧ ¬ s.consumed <+: s.produced := by
  obtain ⟨_, s, hrun, hempty⟩ := Backlog.reached default (fun _ => default) n
  -- the message of the counter `n`, and `31` more
  obtain ⟨_, t, hfill, hwaiting⟩ :=
    hempty.fill (⟨1, 3, 0⟩ :: List.replicate 31 default) (by decide)
  have hwrite := hwaiting.runs_produce ⟨2, 3, 0⟩ (by decide)
  have hlast := hwaiting.produce ⟨2, 3, 0⟩
  have hsome : (t.afterProduce ⟨2, 3, 0⟩).mq.empty = false := by
    rw [← Bool.not_eq_true, CosMessageQueue.empty, beq_iff_eq, hlast.head_eq, hlast.tail_eq,
      ← UInt32.toNat_inj, UInt32.toNat_ofNat', UInt32.toNat_ofNat']
    simp only [List.length_append, List.length_cons, List.length_replicate, List.length_nil]
    omega
  obtain ⟨_, hconsume⟩ := runs_afterConsume hlast.loop hsome
  refine ⟨_, _, ((hrun.append hfill).append hwrite).append hconsume, ?_⟩
  have hindex : CosMessageQueue.index (t.afterProduce ⟨2, 3, 0⟩).mq.tail =
      CosMessageQueue.index t.mq.head := by
    rw [hlast.tail_eq, hwaiting.head_eq]
    exact hslot
  have hconsumed : (t.afterProduce ⟨2, 3, 0⟩).afterConsume.consumed =
      List.replicate n default ++ [⟨2, 3, 0⟩] := by
    simp only [afterConsume, hindex, hlast.consumed_eq]
    simp [afterProduce, CosMessageQueue.writeSlot]
  have hproduced : (t.afterProduce ⟨2, 3, 0⟩).afterConsume.produced = _ := hlast.produced_eq
  rw [hconsumed, hproduced, List.prefix_append_right_inj, List.cons_append, List.cons_prefix_cons]
  rintro ⟨hsame, -⟩
  revert hsame
  decide

/-- Past the wrap of `head` a message is overwritten before it is read. -/
theorem delivery_fails_past_wrap :
    ∃ actions s, Runs Step (init fun _ => default) actions s ∧ ¬ s.consumed <+: s.produced :=
  delivery_fails_of_slot_eq (n := 2 ^ 32 - 1) (by decide)

end Channel

end CosUserspace

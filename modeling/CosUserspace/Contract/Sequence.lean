import CosUserspace.Fifo.Lord
import CosUserspace.Shinjuku.Assignment

/-!
# The sequence number of a round

`consume_message` stores the 32-bit `seq` of every message that is not about the lord, and a round commits it through the 16-bit parameter of `commit_shoot_message`: what arrives in the area is the last number modulo `2 ^ 16`.
-/

namespace CosUserspace

/-- The sequence number of the last message that is not about the lord, or `start`. -/
def lastSeq (lordPid : UInt32) (start : UInt32) (msgs : List CosMsg) : UInt32 :=
  ((msgs.filter fun m => m.pid.toUInt32 ≠ lordPid).map (·.seq)).getLastD start

theorem lastSeq_append (lordPid start : UInt32) (msgs more : List CosMsg) :
    lastSeq lordPid start (msgs ++ more) = lastSeq lordPid (lastSeq lordPid start msgs) more := by
  simp only [lastSeq, List.filter_append, List.map_append]
  generalize (more.filter _).map _ = tail
  cases tail using List.reverseRecOn with
  | nil => simp
  | append_singleton tail seq => rw [← List.append_assoc, List.getLastD_concat, List.getLastD_concat]

theorem lastSeq_cons_of_eq {lordPid start : UInt32} {m : CosMsg} (msgs : List CosMsg)
    (hlord : m.pid.toUInt32 = lordPid) : lastSeq lordPid start (m :: msgs) = lastSeq lordPid start msgs := by
  rw [lastSeq, List.filter_cons_of_neg (by simpa using hlord), ← lastSeq]

theorem lastSeq_cons_of_ne {lordPid start : UInt32} {m : CosMsg} (msgs : List CosMsg)
    (hlord : m.pid.toUInt32 ≠ lordPid) : lastSeq lordPid start (m :: msgs) = lastSeq lordPid m.seq msgs := by
  rw [lastSeq, List.filter_cons_of_pos (by simpa using hlord), List.map_cons, List.getLastD_cons, ← lastSeq]

/-! ### Messages and rounds -/

theorem Lord.consumeMessage_seq {θ κ : Type} [Inhabited θ] [CpuRecord κ] {msgs : List CosMsg} {l l' : Lord θ κ}
    (hok : l.consumeMessage msgs = .ok l') :
    l'.lordPid = l.lordPid ∧ l'.seq = lastSeq l.lordPid l.seq msgs := by
  induction msgs generalizing l with
  | nil =>
    obtain rfl := Except.ok.inj hok
    exact ⟨rfl, rfl⟩
  | cons m msgs ih =>
    rw [Lord.consumeMessage] at hok
    split at hok
    · rename_i hlord
      obtain ⟨hpid, hseq⟩ := ih hok
      exact ⟨hpid, hseq.trans (lastSeq_cons_of_eq msgs hlord).symm⟩
    · rename_i hlord
      split at hok
      · cases hok
      · rename_i hhandle
        have hbase := Lord.SameBase.handle hhandle
        obtain ⟨hpid, hseq⟩ := ih hok
        rw [hbase.lordPid_eq, hbase.seq_eq] at hseq
        exact ⟨hpid.trans hbase.lordPid_eq, hseq.trans (lastSeq_cons_of_ne msgs hlord).symm⟩

namespace Scheduler

variable {θ κ ι : Type}

/-- What a call of `schedule` leaves in the area when it commits a non-empty round. -/
def committed (S : Scheduler θ κ ι) (input : ι) (l : Lord θ κ) : Option CosShootArea :=
  match S.assign input l with
  | .error _ => none
  | .ok (l₁, r) => if r.assigned.isEmpty then none else l₁.commit r

/-- A scheduler whose `assign` leaves the base class alone. -/
def Frames (S : Scheduler θ κ ι) : Prop :=
  ∀ input l l' r, S.assign input l = .ok (l', r) → Lord.SameBase l l'

theorem AssignsByShots.frames {S : Scheduler θ κ ι} (hassigns : S.AssignsByShots) : S.Frames :=
  fun _ l _ _ hok => (hassigns _ (Lord.SameBase.keptByShots S.cpuNum l) _ _ _ _ (.refl l) hok).1

theorem Frames.schedule {S : Scheduler θ κ ι} (hframes : S.Frames) {input : ι} {l l' : Lord θ κ}
    (hok : S.schedule input l = .ok l') : Lord.SameBase l l' := by
  unfold Scheduler.schedule at hok
  split at hok
  · cases hok
  · rename_i hassign
    exact (hframes _ _ _ _ hassign).trans (Lord.SameBase.shoot hok)

/-- A committed number is the one the lord holds, cut to 16 bits. -/
theorem Frames.committed_seq {S : Scheduler θ κ ι} (hframes : S.Frames) {input : ι} {l : Lord θ κ}
    {sa : CosShootArea} (hcommitted : S.committed input l = some sa) : sa.seq.toNat = l.seq.toNat % 2 ^ 16 := by
  unfold committed at hcommitted
  split at hcommitted
  · cases hcommitted
  split at hcommitted
  · cases hcommitted
  rename_i hassign _
  obtain ⟨area, -, rfl⟩ := Option.map_eq_some_iff.mp hcommitted
  simp [(hframes _ _ _ _ hassign).seq_eq]

variable [Inhabited θ] [CpuRecord κ]

/-- One turn of the lord's loop: a batch of messages, and a call of `schedule`. -/
def Turn (S : Scheduler θ κ ι) (l : Lord θ κ) (turn : List CosMsg × ι) (l' : Lord θ κ) : Prop :=
  ∃ l₁, l.consumeMessage turn.1 = .ok l₁ ∧ S.schedule turn.2 l₁ = .ok l'

theorem Frames.turns_seq {S : Scheduler θ κ ι} (hframes : S.Frames) {lordCpu : Int} {lordPid : UInt32}
    {turns : List (List CosMsg × ι)} {l : Lord θ κ} (hrun : Runs S.Turn (Lord.new S.cpuNum lordCpu lordPid) turns l) :
    l.lordPid = lordPid ∧ l.seq = lastSeq lordPid 0 (turns.flatMap Prod.fst) := by
  refine hrun.invariant_history (P := fun turns l => l.lordPid = lordPid ∧
    l.seq = lastSeq lordPid 0 (turns.flatMap Prod.fst)) ⟨rfl, rfl⟩ ?_
  rintro turns l ⟨batch, input⟩ l' ⟨hpid, hseq⟩ ⟨l₁, hconsume, hschedule⟩
  obtain ⟨hpid₁, hseq₁⟩ := Lord.consumeMessage_seq hconsume
  have hbase := hframes.schedule hschedule
  refine ⟨hbase.lordPid_eq.trans (hpid₁.trans hpid), ?_⟩
  rw [hbase.seq_eq, hseq₁, hpid, hseq, ← lastSeq_append, List.flatMap_append, List.flatMap_singleton]

theorem Frames.committed_iff {S : Scheduler θ κ ι} (hframes : S.Frames) {lordCpu : Int} {lordPid : UInt32}
    {turns : List (List CosMsg × ι)} {batch : List CosMsg} {input : ι} {l l₁ : Lord θ κ} {sa : CosShootArea}
    (hrun : Runs S.Turn (Lord.new S.cpuNum lordCpu lordPid) turns l) (hconsume : l.consumeMessage batch = .ok l₁)
    (hcommitted : S.committed input l₁ = some sa) :
    sa.seq.toNat = (lastSeq lordPid 0 (turns.flatMap Prod.fst ++ batch)).toNat ↔
      (lastSeq lordPid 0 (turns.flatMap Prod.fst ++ batch)).toNat < 2 ^ 16 := by
  obtain ⟨hpid, hseq⟩ := hframes.turns_seq hrun
  have hlast := (Lord.consumeMessage_seq hconsume).2
  rw [hpid, hseq, ← lastSeq_append] at hlast
  rw [hframes.committed_seq hcommitted, hlast]
  omega

end Scheduler

/-- **A non-empty round commits the number of the last message that is not about the lord exactly when this number fits into 16 bits**, in both lords and after any turns under any answers. -/
theorem committed_seq_iff (cpuNum : Nat) (lordCpu : Int) (lordPid : UInt32) (batch : List CosMsg) :
    (∀ turns input (l l₁ : FifoLord) sa,
      Runs (fifo cpuNum).Turn (Lord.new cpuNum lordCpu lordPid) turns l → l.consumeMessage batch = .ok l₁ →
      (fifo cpuNum).committed input l₁ = some sa →
      (sa.seq.toNat = (lastSeq lordPid 0 (turns.flatMap Prod.fst ++ batch)).toNat ↔
        (lastSeq lordPid 0 (turns.flatMap Prod.fst ++ batch)).toNat < 2 ^ 16)) ∧
    ∀ turns input (l l₁ : ShinjukuLord) sa,
      Runs (shinjuku cpuNum).Turn (Lord.new cpuNum lordCpu lordPid) turns l → l.consumeMessage batch = .ok l₁ →
      (shinjuku cpuNum).committed input l₁ = some sa →
      (sa.seq.toNat = (lastSeq lordPid 0 (turns.flatMap Prod.fst ++ batch)).toNat ↔
        (lastSeq lordPid 0 (turns.flatMap Prod.fst ++ batch)).toNat < 2 ^ 16) := by
  have hfifo : (fifo cpuNum).Frames := (FifoLord.assigns_by_shots cpuNum).frames
  have hshinjuku : (shinjuku cpuNum).Frames := (ShinjukuLord.assigns_by_shots cpuNum).frames
  exact ⟨fun _ _ _ _ _ hrun hconsume => hfifo.committed_iff hrun hconsume,
    fun _ _ _ _ _ hrun hconsume => hshinjuku.committed_iff hrun hconsume⟩

/-- After a turn that has shot the task `10`, a batch in which it leaves its CPU, another task starts, and the last message is about the lord. -/
theorem committed_seq_second_turn :
    (∃ l l₁ sa, Runs (fifo 2).Turn (Lord.new 2 0 1) [([⟨10, 3, 7⟩, ⟨11, 3, 8⟩], ⟨0, ∅⟩)] l ∧
      l.consumeMessage [⟨10, 2, 9⟩, ⟨12, 3, 10⟩, ⟨1, 2, 11⟩] = .ok l₁ ∧
      (fifo 2).committed ⟨0, ∅⟩ l₁ = some sa ∧ sa.seq.toNat = 10) ∧
    ∃ l l₁ sa, Runs (shinjuku 4).Turn (Lord.new 4 0 1) [([⟨10, 3, 7⟩, ⟨11, 3, 8⟩], ⟨1000, .init, ⟨0, ∅⟩⟩)] l ∧
      l.consumeMessage [⟨10, 2, 9⟩, ⟨12, 3, 10⟩, ⟨1, 2, 11⟩] = .ok l₁ ∧
      (shinjuku 4).committed ⟨2000, .init, ⟨0, ∅⟩⟩ l₁ = some sa ∧ sa.seq.toNat = 10 := by
  have hfifo : Runs (fifo 2).Turn (Lord.new 2 0 1) [([⟨10, 3, 7⟩, ⟨11, 3, 8⟩], ⟨0, ∅⟩)] _ :=
    .snoc .nil ⟨_, rfl, rfl⟩
  have hshinjuku : Runs (shinjuku 4).Turn (Lord.new 4 0 1)
      [([⟨10, 3, 7⟩, ⟨11, 3, 8⟩], ⟨1000, .init, ⟨0, ∅⟩⟩)] _ := .snoc .nil ⟨_, rfl, rfl⟩
  constructor
  · have hseq := (committed_seq_iff 2 0 1 [⟨10, 2, 9⟩, ⟨12, 3, 10⟩, ⟨1, 2, 11⟩]).1 _ ⟨0, ∅⟩ _ _ _ hfifo rfl rfl
    exact ⟨_, _, _, hfifo, rfl, rfl, hseq.mpr (by decide)⟩
  · have hseq := (committed_seq_iff 4 0 1 [⟨10, 2, 9⟩, ⟨12, 3, 10⟩, ⟨1, 2, 11⟩]).2 _ ⟨2000, .init, ⟨0, ∅⟩⟩ _ _ _
      hshinjuku rfl rfl
    exact ⟨_, _, _, hshinjuku, rfl, rfl, hseq.mpr (by decide)⟩

/-- The message with the number `65536` is committed as number `0`. -/
theorem committed_seq_cut :
    ∃ l sa, (Lord.new 2 0 1 : FifoLord).consumeMessage [⟨10, 3, 65536⟩] = .ok l ∧
      (fifo 2).committed ⟨0, ∅⟩ l = some sa ∧ sa.seq.toNat = 0 ∧ (lastSeq 1 0 [⟨10, 3, 65536⟩]).toNat = 65536 :=
  ⟨_, _, rfl, rfl, rfl, rfl⟩

end CosUserspace

import CosUserspace.Epistle.Calls

/-!
# Processes that share an epistle

Any number of threads call `add` and `get`, each as often as it likes, and their accesses to the shared table interleave in any order. As long as no two calls of `add` for one key overlap, the calls take effect one after the other, in the order in which they return: their answers are those of one sequential map. And nobody waits for anybody: while a slot is empty a call returns after a bounded number of its own accesses, whatever the others do.
-/

namespace CosUserspace

namespace Epistle

inductive Call (V : Type)
  | add (key : Int32) (value : V)
  | get (key : Int32)

def Call.key {V : Type} : Call V → Int32
  | .add key _ | .get key => key

/-- What `add` and `get` return. -/
abbrev Answer (V : Type) := Bool ⊕ V

/-- The map that the epistle stands for, one call after the other. -/
def MapStep {V : Type} (m : Int32 → V) : Call V × Answer V → (Int32 → V) → Prop
  | (.add key value, answer), m' => answer = .inl true ∧ m' = Function.update m key value
  | (.get key, answer), m' => answer = .inr (m key) ∧ m' = m

/-- A thread, between two calls or before the next access of one. -/
inductive Client (V : Type) (capacity : Nat)
  | idle
  | adding (key : Int32) (value : V) (pc : AddPc capacity)
  | getting (key : Int32) (pc : GetPc capacity)

/-- What a thread does next. -/
inductive Event (ι V : Type)
  | call (i : ι) (c : Call V)
  | access (i : ι)

/-- The shared table and the threads that use it, with the calls that have returned so far and the number of accesses that each thread has made in its last call. -/
structure Clients (ι V : Type) (capacity : Nat) where
  epistle : Epistle V capacity
  client : ι → Client V capacity
  returned : List (Call V × Answer V)
  accesses : ι → Nat

namespace Clients

variable {ι V : Type} {capacity : Nat}

def init [Inhabited V] : Clients ι V capacity where
  epistle := .init
  client := fun _ => .idle
  returned := []
  accesses := fun _ => 0

section Steps

variable [DecidableEq ι]

/-- The thread `i` goes on in its call, on the table as its access has left it. -/
def goOn (i : ι) (epistle : Epistle V capacity) (client : Client V capacity) (s : Clients ι V capacity) :
    Clients ι V capacity :=
  { s with
    epistle
    client := Function.update s.client i client
    accesses := Function.update s.accesses i (s.accesses i + 1) }

/-- The call `c` of the thread `i` returns. -/
def ret (i : ι) (epistle : Epistle V capacity) (c : Call V) (answer : Answer V) (s : Clients ι V capacity) :
    Clients ι V capacity :=
  { s.goOn i epistle .idle with returned := s.returned ++ [(c, answer)] }

/-- The next access of the thread `i`. -/
def access [Inhabited V] (i : ι) (s : Clients ι V capacity) : Clients ι V capacity :=
  match s.client i with
  | .idle => s
  | .adding key value pc =>
    match addMove key value s.epistle pc with
    | (.returned, epistle) => s.ret i epistle (.add key value) (.inl true)
    | (pc, epistle) => s.goOn i epistle (.adding key value pc)
  | .getting key pc =>
    match getMove key s.epistle pc with
    | .inl pc => s.goOn i s.epistle (.getting key pc)
    | .inr value => s.ret i s.epistle (.get key) (.inr value)

variable [NeZero capacity]

def begin : Call V → Client V capacity
  | .add key value => .adding key value (.test (hash key))
  | .get key => .getting key (.test (hash key))

def call (i : ι) (c : Call V) (s : Clients ι V capacity) : Clients ι V capacity :=
  { s with client := Function.update s.client i (begin c), accesses := Function.update s.accesses i 0 }

/-- A thread between two calls makes the next one, with a key that passes the assert; any other makes its next access. -/
def Step [Inhabited V] (s : Clients ι V capacity) : Event ι V → Clients ι V capacity → Prop
  | .call i c, t => s.client i = .idle ∧ c.key ≠ 0 ∧ t = s.call i c
  | .access i, t => s.client i ≠ .idle ∧ t = s.access i

/-- No call of `add` begins while another one for its key is under way. -/
def Alone (s : Clients ι V capacity) : Event ι V → Prop
  | .call _ (.add key _) => ∀ j value pc, s.client j ≠ .adding key value pc
  | .call _ (.get _) | .access _ => True

def AloneStep [Inhabited V] (s : Clients ι V capacity) (event : Event ι V) (t : Clients ι V capacity) : Prop :=
  Step s event t ∧ s.Alone event

end Steps

/-! ### The table and the map -/

section Map

variable [Inhabited V] {e e' : Epistle V capacity} {key : Int32} {m m' : Int32 → V}

/-- The entries of the table are those of the map. -/
structure Agrees (e : Epistle V capacity) (m : Int32 → V) : Prop where
  value : ∀ idx key, e.occ idx = some key → (e.table idx).value = m key
  absent : ∀ key, e.Lacks key → m key = default

namespace Agrees

theorem of_unset (hagrees : Agrees e m) (hunset : e.Unset key) : m key = default := by
  by_cases hlacks : e.Lacks key
  · exact hagrees.absent key hlacks
  · obtain ⟨idx, hidx⟩ := not_forall_not.mp hlacks
    rw [← hagrees.value idx key hidx, hunset idx hidx]

/-- A change to slots of one key leaves the other keys of the map alone. -/
theorem touches (hagrees : Agrees e m) (htouches : Touches key e e') (hothers : ∀ k, k ≠ key → m' k = m k)
    (hvalue : ∀ idx, e'.occ idx = some key → (e'.table idx).value = m' key)
    (habsent : e'.Lacks key → m' key = default) : Agrees e' m' where
  value idx k hidx := by
    by_cases hk : k = key
    · subst hk
      exact hvalue idx hidx
    · obtain ⟨hbefore, hsame⟩ := htouches.occ_of_ne hk hidx
      rw [hsame, hothers k hk, hagrees.value idx k hbefore]
  absent k hlacks := by
    by_cases hk : k = key
    · subst hk
      exact habsent hlacks
    · rw [hothers k hk]
      exact hagrees.absent k fun idx hidx => hlacks idx (htouches.keeps idx k hidx)

/-- What an access of `get` returns is the value in the map. -/
theorem answer (hagrees : Agrees e m) {value : V} (hvalue : e.Holds key value ∨ e.Lacks key ∧ value = default) :
    value = m key := by
  rcases hvalue with ⟨idx, hidx, rfl⟩ | ⟨hlacks, rfl⟩
  · exact hagrees.value idx key hidx
  · exact (hagrees.absent key hlacks).symm

end Agrees

variable [NeZero capacity]

/-- How far a call of `add` has got: its key has an entry already, or no other call has made one. -/
def Adding (e : Epistle V capacity) (key : Int32) (pc : AddPc capacity) : Prop :=
  (Seeks e.occ key pc ∧ ∃ idx, e.occ idx = some key) ∨ (Claims e.occ key pc ∧ e.Unset key)

theorem Adding.start (e : Epistle V capacity) (key : Int32) : Adding e key (.test (hash key)) := by
  by_cases hlacks : e.Lacks key
  · exact .inr ⟨⟨.start e.occ key, hlacks⟩, fun idx hidx => absurd hidx (hlacks idx)⟩
  · exact .inl ⟨.start e.occ key, not_forall_not.mp hlacks⟩

theorem Adding.of_touches {other : Int32} {pc : AddPc capacity} (hadding : Adding e other pc)
    (htouches : Touches key e e') (hne : other ≠ key) : Adding e' other pc := by
  rcases hadding with ⟨hseeks, idx, hidx⟩ | ⟨hclaims, hunset⟩
  · exact .inl ⟨hseeks.mono htouches.keeps, idx, htouches.keeps idx other hidx⟩
  · refine .inr ⟨hclaims.mono htouches.keeps fun _ hidx => (htouches.occ_of_ne hne hidx).1, fun idx hidx => ?_⟩
    obtain ⟨hbefore, hsame⟩ := htouches.occ_of_ne hne hidx
    rw [hsame, hunset idx hbefore]

/-- One access of `add`: the call goes on and the map is the same, or it returns and has written its value. -/
theorem addMove_adding (value : V) (hkey : key ≠ 0) (hblank : e.Blank) (hplaced : KeyPlaced hash e.occ key)
    {pc : AddPc capacity} (hadding : Adding e key pc) :
    ∃ pc' e', addMove key value e pc = (pc', e') ∧ Touches key e e' ∧ KeyPlaced hash e'.occ key ∧
      ((pc' ≠ .returned ∧ Adding e' key pc' ∧ ∀ m, Agrees e m → Agrees e' m) ∨
        (pc' = .returned ∧ e'.Holds key value)) := by
  rcases hadding with ⟨hseeks, idx, hidx⟩ | ⟨hclaims, hunset⟩
  · rcases addMove_seeks value hplaced ⟨idx, hidx, rfl⟩ hseeks with ⟨pc', hmove, hseeks', hne⟩ | ⟨e', hmove, hdone⟩
    · exact ⟨pc', e, hmove, .refl key e, hplaced, .inl ⟨hne, .inl ⟨hseeks', idx, hidx⟩, fun _ hagrees => hagrees⟩⟩
    · exact ⟨.returned, e', hmove, hdone.1, hdone.2.1, .inr ⟨rfl, hdone.2.2⟩⟩
  · obtain ⟨pc', e', hmove, htouches, hplaced', hnext⟩ := addMove_claims value hkey hblank hplaced hunset hclaims
    refine ⟨pc', e', hmove, htouches, hplaced', hnext.imp_left ?_⟩
    rintro ⟨hclaims', hunset'⟩
    refine ⟨?_, .inr ⟨hclaims', hunset'⟩, fun m hagrees => ?_⟩
    · rintro rfl
      exact hclaims'
    · have hdefault := hagrees.of_unset hunset
      refine hagrees.touches htouches (fun _ _ => rfl) (fun idx hidx => ?_) fun _ => hdefault
      rw [hunset' idx hidx, hdefault]

end Map

/-! ### The calls are those of a map -/

section Linearization

variable [Inhabited V] [NeZero capacity] {s t : Clients ι V capacity} {m m' : Int32 → V} {i : ι}

structure Inv (s : Clients ι V capacity) (m : Int32 → V) : Prop where
  blank : s.epistle.Blank
  placed : ∀ key, KeyPlaced hash s.epistle.occ key
  agrees : Agrees s.epistle m
  adding : ∀ i key value pc, s.client i = .adding key value pc → key ≠ 0 ∧ Adding s.epistle key pc
  getting : ∀ i key pc, s.client i = .getting key pc → pc.At s.epistle.occ key
  alone : ∀ i j key value value' pc pc', s.client i = .adding key value pc → s.client j = .adding key value' pc' → i = j

theorem Inv.init : Inv (Clients.init : Clients ι V capacity) fun _ => default where
  blank := blank_init
  placed key slot hslot := by simp [Clients.init] at hslot
  agrees := ⟨fun idx key hidx => by simp [Clients.init] at hidx, fun _ _ => rfl⟩
  adding := by simp [Clients.init]
  getting := by simp [Clients.init]
  alone := by simp [Clients.init]

variable [DecidableEq ι]

/-- A step of the thread `i`, by what it does to the table and to the call of `i`. -/
theorem Inv.move (hinv : Inv s m) {client : Client V capacity} (hclient : t.client = Function.update s.client i client)
    (hblank : t.epistle.Blank) (hplaced : ∀ key, KeyPlaced hash t.epistle.occ key) (hagrees : Agrees t.epistle m')
    (hkeeps : ∀ idx k, s.epistle.occ idx = some k → t.epistle.occ idx = some k)
    (hothers : ∀ j, j ≠ i → ∀ key value pc, s.client j = .adding key value pc → Adding t.epistle key pc)
    (hadding : ∀ key value pc, client = .adding key value pc → key ≠ 0 ∧ Adding t.epistle key pc ∧
      ∀ j, j ≠ i → ∀ value pc, s.client j ≠ .adding key value pc)
    (hgetting : ∀ key pc, client = .getting key pc → pc.At t.epistle.occ key) : Inv t m' := by
  have hself : t.client i = client := by rw [hclient, Function.update_self]
  have hother : ∀ j, j ≠ i → t.client j = s.client j := fun j hj => by rw [hclient, Function.update_of_ne hj]
  constructor
  case blank => exact hblank
  case placed => exact hplaced
  case agrees => exact hagrees
  case adding =>
    intro j key value pc hj
    by_cases heq : j = i
    · subst heq
      obtain ⟨hkey, hpc, -⟩ := hadding key value pc (hself.symm.trans hj)
      exact ⟨hkey, hpc⟩
    · rw [hother j heq] at hj
      exact ⟨(hinv.adding j key value pc hj).1, hothers j heq key value pc hj⟩
  case getting =>
    intro j key pc hj
    by_cases heq : j = i
    · subst heq
      exact hgetting key pc (hself.symm.trans hj)
    · rw [hother j heq] at hj
      exact (hinv.getting j key pc hj).mono hkeeps
  case alone =>
    intro j j' key value value' pc pc' hj hj'
    by_cases heq : j = i
    · by_cases heq' : j' = i
      · exact heq.trans heq'.symm
      · rw [hother j' heq'] at hj'
        rw [heq, hself] at hj
        exact absurd hj' ((hadding key value pc hj).2.2 j' heq' value' pc')
    · rw [hother j heq] at hj
      by_cases heq' : j' = i
      · rw [heq', hself] at hj'
        exact absurd hj ((hadding key value' pc' hj').2.2 j heq value pc)
      · rw [hother j' heq'] at hj'
        exact hinv.alone j j' key value value' pc pc' hj hj'

theorem Inv.call (hinv : Inv s m) {c : Call V} (hkey : c.key ≠ 0) (halone : s.Alone (.call i c)) :
    Inv (s.call i c) m := by
  refine hinv.move rfl hinv.blank hinv.placed hinv.agrees (fun _ _ h => h) ?_ ?_ ?_
  · exact fun j _ key value pc hj => (hinv.adding j key value pc hj).2
  · intro key value pc hbegin
    cases c with
    | get => cases hbegin
    | add k v =>
      obtain ⟨rfl, rfl, rfl⟩ := Client.adding.inj hbegin
      exact ⟨hkey, .start s.epistle k, fun j _ value pc => halone j value pc⟩
  · intro key pc hbegin
    cases c with
    | add => cases hbegin
    | get k =>
      obtain ⟨rfl, rfl⟩ := Client.getting.inj hbegin
      exact OnPath.start s.epistle.occ k

/-- An access of a call of `add`. -/
theorem Inv.access_adding (hinv : Inv s m) {key : Int32} {value : V} {pc : AddPc capacity}
    (hclient : s.client i = .adding key value pc) :
    ∃ calls m', Runs MapStep m calls m' ∧ (s.access i).returned = s.returned ++ calls ∧ Inv (s.access i) m' := by
  obtain ⟨hkey, hadding⟩ := hinv.adding i key value pc hclient
  obtain ⟨pc', e', hmove, htouches, hplaced, hnext⟩ :=
    addMove_adding value hkey hinv.blank (hinv.placed key) hadding
  have hrivals : ∀ j, j ≠ i → ∀ value pc, s.client j ≠ .adding key value pc :=
    fun j hj value' pc' h => hj (hinv.alone j i key value' value pc' pc h hclient)
  have hallPlaced : ∀ k, KeyPlaced hash e'.occ k := by
    intro k
    by_cases hk : k = key
    · exact hk ▸ hplaced
    · exact htouches.placed hk (hinv.placed k)
  have hothers : ∀ j, j ≠ i → ∀ k v pc, s.client j = .adding k v pc → Adding e' k pc := by
    intro j hj k v pc' h
    have hne : k ≠ key := fun heq => hrivals j hj v pc' (heq ▸ h)
    exact (hinv.adding j k v pc' h).2.of_touches htouches hne
  rcases hnext with ⟨hgoes, hadding', hsame⟩ | ⟨rfl, hholds⟩
  · have haccess : s.access i = s.goOn i e' (.adding key value pc') := by
      simp only [access, hclient, hmove]
    rw [haccess]
    refine ⟨[], m, .nil, (List.append_nil _).symm, ?_⟩
    refine hinv.move rfl (htouches.blank hinv.blank) hallPlaced (hsame m hinv.agrees) htouches.keeps hothers ?_ ?_
    · intro k v pc'' h
      obtain ⟨rfl, rfl, rfl⟩ := Client.adding.inj h
      exact ⟨hkey, hadding', hrivals⟩
    · intro k pc'' h
      cases h
  · have haccess : s.access i = s.ret i e' (.add key value) (.inl true) := by
      simp only [access, hclient, hmove]
    rw [haccess]
    refine ⟨[(.add key value, .inl true)], Function.update m key value, .snoc .nil ⟨rfl, rfl⟩, rfl, ?_⟩
    obtain ⟨slot, hslot, hvalue⟩ := hholds
    have hagrees : Agrees e' (Function.update m key value) := by
      refine hinv.agrees.touches htouches (fun k hk => Function.update_of_ne hk ..) (fun idx hidx => ?_) ?_
      · rw [hplaced.unique hidx hslot, hvalue, Function.update_self]
      · exact fun hlacks => absurd hslot (hlacks slot)
    refine hinv.move rfl (htouches.blank hinv.blank) hallPlaced hagrees htouches.keeps hothers ?_ ?_
    · intro k v pc'' h
      cases h
    · intro k pc'' h
      cases h

/-- An access of a call of `get`. -/
theorem Inv.access_getting (hinv : Inv s m) {key : Int32} {pc : GetPc capacity} (hclient : s.client i = .getting key pc) :
    ∃ calls m', Runs MapStep m calls m' ∧ (s.access i).returned = s.returned ++ calls ∧ Inv (s.access i) m' := by
  have hothers : ∀ j, j ≠ i → ∀ k v pc, s.client j = .adding k v pc → Adding s.epistle k pc :=
    fun j _ k v pc h => (hinv.adding j k v pc h).2
  rcases getMove_at (hinv.placed key) (hinv.getting i key pc hclient) with ⟨pc', hmove, hat⟩ | ⟨value, hmove, hvalue⟩
  · have haccess : s.access i = s.goOn i s.epistle (.getting key pc') := by simp only [access, hclient, hmove]
    rw [haccess]
    refine ⟨[], m, .nil, (List.append_nil _).symm, ?_⟩
    refine hinv.move rfl hinv.blank hinv.placed hinv.agrees (fun _ _ h => h) hothers ?_ ?_
    · intro k v pc'' h
      cases h
    · intro k pc'' h
      obtain ⟨rfl, rfl⟩ := Client.getting.inj h
      exact hat
  · have haccess : s.access i = s.ret i s.epistle (.get key) (.inr value) := by simp only [access, hclient, hmove]
    rw [haccess]
    have hstep : MapStep m (.get key, .inr value) m := ⟨congrArg Sum.inr (hinv.agrees.answer hvalue), rfl⟩
    refine ⟨[(.get key, .inr value)], m, .snoc .nil hstep, rfl, ?_⟩
    refine hinv.move rfl hinv.blank hinv.placed hinv.agrees (fun _ _ h => h) hothers ?_ ?_
    · intro k v pc'' h
      cases h
    · intro k pc'' h
      cases h

theorem Inv.step {event : Event ι V} (hinv : Inv s m) (hstep : AloneStep s event t) :
    ∃ calls m', Runs MapStep m calls m' ∧ t.returned = s.returned ++ calls ∧ Inv t m' := by
  obtain ⟨hstep, halone⟩ := hstep
  cases event with
  | call i c =>
    obtain ⟨-, hkey, rfl⟩ := hstep
    exact ⟨[], m, .nil, (List.append_nil _).symm, hinv.call hkey halone⟩
  | access i =>
    obtain ⟨hbusy, rfl⟩ := hstep
    cases hclient : s.client i with
    | idle => exact absurd hclient hbusy
    | adding key value pc => exact hinv.access_adding hclient
    | getting key pc => exact hinv.access_getting hclient

omit [DecidableEq ι] in
/-- A `get` that nobody disturbs answers from the map. -/
theorem Inv.get (hinv : Inv s m) {key : Int32} (hkey : key ≠ 0) {idx : Fin capacity}
    (hroom : s.epistle.occ idx = none ∨ s.epistle.occ idx = some key) : s.epistle.get key = .ok (m key) := by
  obtain ⟨n, hn, hends⟩ := exists_ends hash hroom
  rw [get_eq hkey hends hn]
  rcases hends.stops with hfree | hfound
  · rw [if_pos hfree, hinv.agrees.absent key ((hinv.placed key).absent hends.reaches hfree)]
  · rw [if_neg (by simp [hfound]), hinv.agrees.value _ key hfound]

/-- **The epistle is linearizable**: in every interleaving in which no two calls of `add` for one key overlap, the calls, in the order in which they have returned and with the answers they have returned, are a run of the sequential map, and the table holds that map: a `get` of any key that nobody disturbs answers from it, as long as a slot is empty. -/
theorem linearizable {events : List (Event ι V)} (hrun : Runs AloneStep init events s) :
    ∃ m, Runs MapStep (fun _ => default) s.returned m ∧
      ∀ key ≠ 0, ∀ idx, (s.epistle.table idx).key = 0 → s.epistle.get key = .ok (m key) := by
  have hsimulates : ∃ calls m, Runs MapStep (fun _ => default) calls m ∧ s.returned = calls ∧ Inv s m := by
    refine hrun.simulate (E := fun _ s calls m => s.returned = calls ∧ Inv s m) ⟨rfl, .init⟩ ?_
    rintro - t event u calls m ⟨rfl, hinv⟩ hstep
    exact hinv.step hstep
  obtain ⟨calls, m, hcalls, rfl, hinv⟩ := hsimulates
  exact ⟨m, hcalls, fun key hkey idx hfree => hinv.get hkey (.inl (occ_eq_none.mpr hfree))⟩

/-- The calls of a thread that adds a value for the key `5`, and of one that gets it. -/
def handed : List (Event Bool UInt32) :=
  [.call false (.add 5 7), .call true (.get 5), .access false, .access false, .access true, .access false, .access true,
    .access false, .access true]

theorem runs_handed : ∃ s : Clients Bool UInt32 512, Runs AloneStep init handed s ∧
    s.returned = [(.add 5 7, .inl true), (.get 5, .inr 7)] ∧ (s.epistle.table 6).key = 0 ∧ s.accesses true = 3 :=
  ⟨_, .cons ⟨⟨rfl, by decide, rfl⟩, fun _ _ _ h => (nomatch h)⟩
    (.cons ⟨⟨rfl, by decide, rfl⟩, trivial⟩
      (.cons ⟨⟨fun h => (nomatch h), rfl⟩, trivial⟩ (.cons ⟨⟨fun h => (nomatch h), rfl⟩, trivial⟩
        (.cons ⟨⟨fun h => (nomatch h), rfl⟩, trivial⟩ (.cons ⟨⟨fun h => (nomatch h), rfl⟩, trivial⟩
          (.cons ⟨⟨fun h => (nomatch h), rfl⟩, trivial⟩ (.cons ⟨⟨fun h => (nomatch h), rfl⟩, trivial⟩
            (.cons ⟨⟨fun h => (nomatch h), rfl⟩, trivial⟩ .nil)))))))), rfl, rfl, rfl⟩

theorem linearizable_handed :
    ∃ s : Clients Bool UInt32 512, Runs AloneStep init handed s ∧
      s.returned = [(.add 5 7, .inl true), (.get 5, .inr 7)] ∧
      ∃ m, Runs MapStep (fun _ => default) s.returned m ∧ s.epistle.get 5 = .ok (m 5) := by
  obtain ⟨s, hrun, hreturned, hfree, -⟩ := runs_handed
  obtain ⟨m, hm, hget⟩ := linearizable hrun
  exact ⟨s, hrun, hreturned, m, hm, hget 5 (by decide) 6 hfree⟩

end Linearization

/-! ### No call waits for another -/

section WaitFree

variable [NeZero capacity] {e e' : Epistle V capacity} {occ occ' : Fin capacity → Option Int32} {key : Int32}
  {idx : Fin capacity} {count ahead : Nat}

/-- The search for `key` is at this slot, past slots that are taken, after at most three accesses to each of them and `ahead` more. -/
def Walks (occ : Fin capacity → Option Int32) (key : Int32) (idx : Fin capacity) (count ahead : Nat) : Prop :=
  ∃ n, idx = probe (hash key) n ∧ (∀ j < n, occ (probe (hash key) j) ≠ none) ∧ count ≤ 3 * n + ahead

/-- How many accesses the thread has made in its last call. -/
def Bounded (occ : Fin capacity → Option Int32) (count : Nat) : Client V capacity → Prop
  | .idle => ∃ key idx, Walks occ key idx count 4
  | .adding key _ (.test idx) => Walks occ key idx count 0
  | .adding key _ (.swap idx) => Walks occ key idx count 1
  | .adding key _ (.recheck idx) => Walks occ key idx count 2 ∧ occ idx ≠ none
  | .adding key _ (.write idx) => Walks occ key idx count 3
  | .adding _ _ .returned => False
  | .getting key (.test idx) => Walks occ key idx count 0
  | .getting key (.check idx) => Walks occ key idx count 1 ∧ occ idx ≠ none
  | .getting key (.read idx) => Walks occ key idx count 2

theorem Walks.start (occ : Fin capacity → Option Int32) (key : Int32) : Walks occ key (hash key) 0 0 :=
  ⟨0, (probe_zero _).symm, fun j hj => absurd hj (Nat.not_lt_zero j), Nat.zero_le _⟩

theorem Walks.mono (hwalks : Walks occ key idx count ahead)
    (hkeeps : ∀ slot k, occ slot = some k → occ' slot = some k) : Walks occ' key idx count ahead := by
  obtain ⟨n, hidx, hpassed, hcount⟩ := hwalks
  exact ⟨n, hidx, fun j hj => occupied_mono hkeeps (hpassed j hj), hcount⟩

/-- One more access to the same slot. -/
theorem Walks.stay (hwalks : Walks occ key idx count ahead) {ahead' : Nat} (hlt : ahead < ahead') :
    Walks occ key idx (count + 1) ahead' := by
  obtain ⟨n, hidx, hpassed, hcount⟩ := hwalks
  exact ⟨n, hidx, hpassed, by omega⟩

/-- The third access to a slot at the latest goes on to the next one. -/
theorem Walks.next (hwalks : Walks occ key idx count ahead) (hsome : occ idx ≠ none) (hle : ahead ≤ 2) :
    Walks occ key (nextSlot idx) (count + 1) 0 := by
  obtain ⟨n, rfl, hpassed, hcount⟩ := hwalks
  refine ⟨n + 1, nextSlot_probe _ n, fun j hj => ?_, by omega⟩
  rcases Nat.lt_succ_iff_lt_or_eq.mp hj with hlt | rfl
  · exact hpassed j hlt
  · exact hsome

/-- The search passes fewer slots than there are while one of them is empty. -/
theorem Walks.count_le (hwalks : Walks occ key idx count ahead) {slot : Fin capacity} (hfree : occ slot = none) :
    count + 3 ≤ 3 * capacity + ahead := by
  obtain ⟨n, -, hpassed, hcount⟩ := hwalks
  obtain ⟨d, hd, rfl⟩ := exists_probe (hash key) slot
  have hle : n ≤ d := by
    by_contra hlt
    exact hpassed d (by omega) hfree
  omega

theorem Bounded.mono {client : Client V capacity} (hbounded : Bounded occ count client)
    (hkeeps : ∀ slot k, occ slot = some k → occ' slot = some k) : Bounded occ' count client := by
  cases client with
  | idle =>
    obtain ⟨key, idx, hwalks⟩ := hbounded
    exact ⟨key, idx, hwalks.mono hkeeps⟩
  | adding key value pc =>
    cases pc with
    | test idx | swap idx | write idx => exact Walks.mono hbounded hkeeps
    | recheck idx => exact ⟨hbounded.1.mono hkeeps, occupied_mono hkeeps hbounded.2⟩
    | returned => exact hbounded
  | getting key pc =>
    cases pc with
    | test idx | read idx => exact Walks.mono hbounded hkeeps
    | check idx => exact ⟨hbounded.1.mono hkeeps, occupied_mono hkeeps hbounded.2⟩

/-- A busy thread has made fewer than the most accesses of a call. -/
theorem Bounded.count_le {client : Client V capacity} (hbounded : Bounded occ count client) {slot : Fin capacity}
    (hfree : occ slot = none) : count ≤ 3 * capacity + 1 ∧ (client ≠ .idle → count ≤ 3 * capacity) := by
  cases client with
  | idle =>
    obtain ⟨key, idx, hwalks⟩ := hbounded
    have hle := hwalks.count_le hfree
    exact ⟨by omega, fun hbusy => absurd rfl hbusy⟩
  | adding key value pc =>
    cases pc with
    | test idx | swap idx | write idx =>
      have hle := Walks.count_le hbounded hfree
      exact ⟨by omega, fun _ => by omega⟩
    | recheck idx =>
      have hle := hbounded.1.count_le hfree
      exact ⟨by omega, fun _ => by omega⟩
    | returned => exact absurd hbounded id
  | getting key pc =>
    cases pc with
    | test idx | read idx =>
      have hle := Walks.count_le hbounded hfree
      exact ⟨by omega, fun _ => by omega⟩
    | check idx =>
      have hle := hbounded.1.count_le hfree
      exact ⟨by omega, fun _ => by omega⟩

omit [NeZero capacity] in
/-- An access of `add` never empties a slot. -/
theorem addMove_keeps (hkey : key ≠ 0) (value : V) (pc : AddPc capacity) (slot : Fin capacity) (k : Int32)
    (hslot : e.occ slot = some k) : (addMove key value e pc).2.occ slot = some k := by
  cases pc with
  | test idx | recheck idx | returned => exact hslot
  | write idx => simpa [addMove] using hslot
  | swap idx =>
    by_cases hzero : (e.table idx).key = 0
    · have hne : slot ≠ idx := fun heq => by simp [heq, occ_eq_none.mpr hzero] at hslot
      simp only [addMove, compareAndSwap, if_pos hzero]
      rw [occ_setKey hkey, Function.update_of_ne hne]
      exact hslot
    · simp only [addMove, compareAndSwap, if_neg hzero]
      exact hslot

theorem addMove_bounded (hkey : key ≠ 0) (value : V) {pc : AddPc capacity}
    (hbounded : Bounded e.occ count (.adding key value pc)) {pc' : AddPc capacity}
    (hmove : addMove key value e pc = (pc', e')) :
    (pc' = .returned ∧ ∃ idx, Walks e'.occ key idx (count + 1) 4) ∨
      (pc' ≠ .returned ∧ Bounded e'.occ (count + 1) (.adding key value pc')) := by
  cases pc with
  | test idx =>
    obtain ⟨rfl, rfl⟩ := Prod.mk.inj hmove
    have hwalks : Walks e.occ key idx count 0 := hbounded
    by_cases hzero : (e.table idx).key = 0
    · rw [if_pos hzero]
      exact .inr ⟨by simp, hwalks.stay (by decide)⟩
    · rw [if_neg hzero]
      exact .inr ⟨by simp, hwalks.stay (by decide), fun hnone => hzero (occ_eq_none.mp hnone)⟩
  | swap idx =>
    have hwalks : Walks e.occ key idx count 1 := hbounded
    have hkeeps := addMove_keeps (e := e) hkey value (.swap idx)
    by_cases hzero : (e.table idx).key = 0
    · simp only [addMove, compareAndSwap, if_pos hzero] at hmove hkeeps
      obtain ⟨rfl, rfl⟩ := Prod.mk.inj hmove
      refine .inr ⟨by simp, (hwalks.mono hkeeps).stay (by decide), ?_⟩
      rw [occ_setKey hkey, Function.update_self]
      exact Option.some_ne_none key
    · simp only [addMove, compareAndSwap, if_neg hzero] at hmove
      obtain ⟨rfl, rfl⟩ := Prod.mk.inj hmove
      exact .inr ⟨by simp, hwalks.next (fun hnone => hzero (occ_eq_none.mp hnone)) (by decide)⟩
  | recheck idx =>
    obtain ⟨rfl, rfl⟩ := Prod.mk.inj hmove
    obtain ⟨hwalks, hsome⟩ := hbounded
    by_cases hsame : (e.table idx).key = key
    · rw [if_neg (not_not.mpr hsame)]
      exact .inr ⟨by simp, hwalks.stay (by decide)⟩
    · rw [if_pos hsame]
      exact .inr ⟨by simp, hwalks.next hsome (by decide)⟩
  | write idx =>
    obtain ⟨rfl, rfl⟩ := Prod.mk.inj hmove
    have hwalks : Walks e.occ key idx count 3 := hbounded
    refine .inl ⟨rfl, idx, ?_⟩
    rw [occ_setValue]
    exact hwalks.stay (by decide)
  | returned => exact absurd hbounded id

theorem getMove_bounded [Inhabited V] {pc : GetPc capacity}
    (hbounded : Bounded e.occ count (.getting key pc : Client V capacity)) :
    (∃ pc', getMove key e pc = .inl pc' ∧ Bounded e.occ (count + 1) (.getting key pc' : Client V capacity)) ∨
      ∃ value idx, getMove key e pc = .inr value ∧ Walks e.occ key idx (count + 1) 4 := by
  cases pc with
  | test idx =>
    have hwalks : Walks e.occ key idx count 0 := hbounded
    by_cases hzero : (e.table idx).key = 0
    · exact .inr ⟨default, idx, if_pos hzero, hwalks.stay (by decide)⟩
    · exact .inl ⟨.check idx, if_neg hzero, hwalks.stay (by decide), fun hnone => hzero (occ_eq_none.mp hnone)⟩
  | check idx =>
    obtain ⟨hwalks, hsome⟩ := hbounded
    by_cases hsame : (e.table idx).key = key
    · exact .inl ⟨.read idx, if_neg (not_not.mpr hsame), hwalks.stay (by decide)⟩
    · exact .inl ⟨.test (nextSlot idx), if_pos hsame, hwalks.next hsome (by decide)⟩
  | read idx =>
    have hwalks : Walks e.occ key idx count 2 := hbounded
    exact .inr ⟨_, idx, rfl, hwalks.stay (by decide)⟩

variable {s t : Clients ι V capacity}

structure Bounds (s : Clients ι V capacity) : Prop where
  nonzero : ∀ i key value pc, s.client i = .adding key value pc → key ≠ 0
  bounded : ∀ i, Bounded s.epistle.occ (s.accesses i) (s.client i)

theorem Bounds.init [Inhabited V] : Bounds (Clients.init : Clients ι V capacity) where
  nonzero := by simp [Clients.init]
  bounded _ := ⟨0, hash 0, 0, (probe_zero _).symm, fun j hj => absurd hj (Nat.not_lt_zero j), Nat.zero_le _⟩

variable [DecidableEq ι]

theorem Bounds.move (hinv : Bounds s) {i : ι} {client : Client V capacity}
    (hclient : t.client = Function.update s.client i client)
    (hcount : t.accesses = Function.update s.accesses i count)
    (hkeeps : ∀ idx k, s.epistle.occ idx = some k → t.epistle.occ idx = some k)
    (hnonzero : ∀ key value pc, client = .adding key value pc → key ≠ 0)
    (hbounded : Bounded t.epistle.occ count client) : Bounds t where
  nonzero j key value pc hj := by
    rw [hclient] at hj
    by_cases heq : j = i
    · rw [heq, Function.update_self] at hj
      exact hnonzero key value pc hj
    · rw [Function.update_of_ne heq] at hj
      exact hinv.nonzero j key value pc hj
  bounded j := by
    rw [hclient, hcount]
    by_cases heq : j = i
    · subst heq
      simpa using hbounded
    · simpa [heq] using (hinv.bounded j).mono hkeeps

theorem Bounds.step [Inhabited V] {event : Event ι V} (hinv : Bounds s) (hstep : Step s event t) : Bounds t := by
  cases event with
  | call i c =>
    obtain ⟨-, hkey, rfl⟩ := hstep
    cases c with
    | add key value =>
      refine hinv.move rfl rfl (fun _ _ h => h) (fun k v pc h => ?_) (.start s.epistle.occ key)
      exact (Client.adding.inj h).1 ▸ hkey
    | get key => exact hinv.move rfl rfl (fun _ _ h => h) (fun k v pc h => by cases h) (.start s.epistle.occ key)
  | access i =>
    obtain ⟨hbusy, rfl⟩ := hstep
    have hbounded := hinv.bounded i
    cases hclient : s.client i with
    | idle => exact absurd hclient hbusy
    | adding key value pc =>
      have hkey := hinv.nonzero i key value pc hclient
      have hkeeps := addMove_keeps (e := s.epistle) hkey value pc
      rw [hclient] at hbounded
      rcases hmove : addMove key value s.epistle pc with ⟨pc', e'⟩
      rw [hmove] at hkeeps
      rcases addMove_bounded hkey value hbounded hmove with ⟨rfl, idx, hwalks⟩ | ⟨hgoes, hbounded'⟩
      · have haccess : s.access i = s.ret i e' (.add key value) (.inl true) := by simp only [access, hclient, hmove]
        rw [haccess]
        exact hinv.move rfl rfl hkeeps (fun k v pc h => by cases h) ⟨key, idx, hwalks⟩
      · have haccess : s.access i = s.goOn i e' (.adding key value pc') := by simp only [access, hclient, hmove]
        rw [haccess]
        exact hinv.move rfl rfl hkeeps (fun k v pc h => (Client.adding.inj h).1 ▸ hkey) hbounded'
    | getting key pc =>
      rw [hclient] at hbounded
      rcases getMove_bounded hbounded with ⟨pc', hmove, hbounded'⟩ | ⟨value, idx, hmove, hwalks⟩
      · have haccess : s.access i = s.goOn i s.epistle (.getting key pc') := by simp only [access, hclient, hmove]
        rw [haccess]
        exact hinv.move rfl rfl (fun _ _ h => h) (fun k v pc h => by cases h) hbounded'
      · have haccess : s.access i = s.ret i s.epistle (.get key) (.inr value) := by
          simp only [access, hclient, hmove]
        rw [haccess]
        exact hinv.move rfl rfl (fun _ _ h => h) (fun k v pc h => by cases h) ⟨key, idx, hwalks⟩

/-- **The calls are wait-free while a slot is empty**: in every interleaving, also of calls of `add` for one key, no call of any thread makes more than `3 * capacity_ + 1` accesses, and one that has made `3 * capacity_ + 1` has returned. -/
theorem wait_free [Inhabited V] {events : List (Event ι V)} (hrun : Runs Step init events s) {idx : Fin capacity}
    (hfree : (s.epistle.table idx).key = 0) (i : ι) :
    s.accesses i ≤ 3 * capacity + 1 ∧ (s.client i ≠ .idle → s.accesses i ≤ 3 * capacity) := by
  have hinv : Bounds s := hrun.invariant .init fun _ _ _ hinv hstep => hinv.step hstep
  exact (hinv.bounded i).count_le (occ_eq_none.mpr hfree)

theorem wait_free_handed :
    ∃ s : Clients Bool UInt32 512, Runs Step init handed s ∧ s.accesses true = 3 ∧
      s.accesses true ≤ 3 * 512 + 1 := by
  obtain ⟨s, hrun, -, hfree, haccesses⟩ := runs_handed
  have hsteps : Runs Step init handed s := hrun.mono fun _ _ _ h => h.1
  exact ⟨s, hsteps, haccesses, (wait_free hsteps hfree true).1⟩

end WaitFree

end Clients

end Epistle

end CosUserspace

import Cs544.Concur.BoundedBuffer

/-! Neither thread of the bounded buffer loses or doubles an item.

Only the producer fills slots and only the consumer empties them. So a slot that was
free when the producer passed its semaphore stays free until its scan gets there, and
the same for the items of the consumer; and a thread only ever writes to slots that the
other one does not look at.
-/

set_option autoImplicit false

namespace Cs544.Concur.BoundedBuffer

open Cs544.Library

/-! ## What each thread knows -/

namespace Producer

/-- The producer has passed its semaphore and has not filled a slot yet. -/
def claimed : Producer → Nat
  | scan _ | writeA _ | writeB _ _ => 1
  | _ => 0

/-- The producer has filled a slot and has not posted it yet. -/
def filled : Producer → Nat
  | post => 1
  | _ => 0

/-- What the producer relies on: there is a free slot ahead of its scan, and the slot it
writes to is free. -/
def Ready (buff : Slot → Item) : Producer → Prop
  | scan i => ∃ j : Slot, i ≤ j ∧ (buff j).b = 0
  | writeA i => (buff i).b = 0
  | writeB i rd2 => (buff i).b = 0 ∧ (buff i).a = rd2
  | _ => True

/-- Writes to slots that are not free do not disturb the producer. -/
theorem Ready.stable {buff buff' : Slot → Item} {pc : Producer}
    (same : ∀ j, (buff j).b = 0 → buff' j = buff j) (ready : pc.Ready buff) : pc.Ready buff' := by
  cases pc with
  | scan i =>
    obtain ⟨j, ahead, free⟩ := ready
    exact ⟨j, ahead, by rw [same j free]; exact free⟩
  | writeA i =>
    change (buff' i).b = 0
    rw [same i ready]
    exact ready
  | writeB i rd2 =>
    change (buff' i).b = 0 ∧ (buff' i).a = rd2
    rw [same i ready.1]
    exact ready
  | _ => trivial

end Producer

namespace Consumer

/-- The consumer has passed its semaphore and has not emptied a slot yet. -/
def claimed : Consumer → Nat
  | scan _ | readA _ | sleepB _ _ | readB _ _ | clearA _ _ _ | clearB _ => 1
  | _ => 0

/-- The consumer has emptied a slot and has not posted it yet. -/
def freed : Consumer → Nat
  | post => 1
  | _ => 0

/-- The slot the consumer has found. -/
def slot : Consumer → Option Slot
  | readA i | sleepB i _ | readB i _ | clearA i _ _ | clearB i => some i
  | _ => none

/-- What the consumer relies on: there is an item ahead of its scan, and the slot it has
found is not free and holds what was printed. -/
def Ready (buff : Slot → Item) : Consumer → Prop
  | scan i => ∃ j : Slot, i ≤ j ∧ (buff j).b ≠ 0
  | readA i => (buff i).b ≠ 0
  | sleepB i a | readB i a => (buff i).b ≠ 0 ∧ (buff i).a = a
  | clearA i a b => (buff i).b ≠ 0 ∧ buff i = ⟨a, b⟩
  | clearB i => (buff i).b ≠ 0
  | _ => True

theorem Ready.slot_ne {buff : Slot → Item} {pc : Consumer} {i : Slot} (ready : pc.Ready buff)
    (found : pc.slot = some i) : (buff i).b ≠ 0 := by
  cases pc with
  | readA | clearB =>
    cases found
    exact ready
  | sleepB | readB | clearA =>
    cases found
    exact ready.1
  | _ => cases found

/-- Writes to free slots do not disturb the consumer. -/
theorem Ready.stable {buff buff' : Slot → Item} {pc : Consumer}
    (same : ∀ j, (buff j).b ≠ 0 → buff' j = buff j) (ready : pc.Ready buff) : pc.Ready buff' := by
  cases pc with
  | scan i =>
    obtain ⟨j, ahead, full⟩ := ready
    exact ⟨j, ahead, by rw [same j full]; exact full⟩
  | readA i | clearB i =>
    change (buff' i).b ≠ 0
    rw [same i ready]
    exact ready
  | sleepB i a | readB i a =>
    change (buff' i).b ≠ 0 ∧ (buff' i).a = a
    rw [same i ready.1]
    exact ready
  | clearA i a b =>
    change (buff' i).b ≠ 0 ∧ buff' i = ⟨a, b⟩
    rw [same i ready.1]
    exact ready
  | _ => trivial

end Consumer

def Item.vacant (item : Item) : Nat := if item.b = 0 then 1 else 0

def Item.occupied (item : Item) : Nat := if item.b = 0 then 0 else 1

/-- The semaphores count the slots, up to what each thread has claimed or not posted
yet; both threads find what they rely on; and nothing is lost. -/
structure Inv (s : State) : Prop where
  free : s.semP + s.producer.claimed + s.consumer.freed = held Item.vacant s.buff
  full : s.semC + s.producer.filled + s.consumer.claimed = held Item.occupied s.buff
  producer : s.producer.Ready s.buff
  consumer : s.consumer.Ready s.buff
  conserved : s.produced = s.consumed + items s

variable {s s' : State} {i : Slot} {item : Item}

theorem inv_initial (proNo comNo : Int) : Inv (initial proNo comNo) where
  free := by simp [held, initial, Item.vacant, Producer.claimed, Consumer.freed]
  full := by simp [held, initial, Item.occupied, Producer.filled, Consumer.claimed]
  producer := trivial
  consumer := trivial
  conserved := by simp [items, held, content, initial]

/-! ## The contents -/

theorem items_congr (buff : s'.buff = s.buff) (clears : ∀ i, s'.consumer = .clearB i ↔ s.consumer = .clearB i) :
    items s' = items s := by
  have same : content s' = content s := by
    funext i
    simp only [content, buff, clears]
  rw [items, items, same]

theorem items_fill (filled : content s' = Function.update (content s) i (some item))
    (empty : content s i = none) : items s' = items s + {item} := by
  have update := held_update (fun o : Option Item => o.elim 0 ({·} : Item → Multiset Item)) (content s) i (some item)
  rw [← filled, empty] at update
  simpa [items] using update

theorem items_take (taken : content s' = Function.update (content s) i none)
    (present : content s i = some item) : items s = items s' + {item} := by
  have update := held_update (fun o : Option Item => o.elim 0 ({·} : Item → Multiset Item)) (content s) i none
  rw [← taken, present] at update
  simpa [items] using update.symm

theorem exists_vacant {buff : Slot → Item} (positive : 0 < held Item.vacant buff) : ∃ j, (buff j).b = 0 := by
  obtain ⟨j, vacant⟩ := exists_of_held_pos positive
  refine ⟨j, ?_⟩
  by_contra full
  simp [Item.vacant, full] at vacant

theorem exists_occupied {buff : Slot → Item} (positive : 0 < held Item.occupied buff) : ∃ j, (buff j).b ≠ 0 := by
  obtain ⟨j, occupied⟩ := exists_of_held_pos positive
  refine ⟨j, fun free => ?_⟩
  simp [Item.occupied, free] at occupied

/-- The next slot of a scan, if this one is not what it looks for. -/
theorem next_ahead {i : Nat} (inside : i < 32) {P : Slot → Prop} (ahead : ∃ j : Slot, i ≤ j ∧ P j)
    (here : ¬ P ⟨i, inside⟩) : ∃ j : Slot, i + 1 ≤ j ∧ P j := by
  obtain ⟨j, le, found⟩ := ahead
  refine ⟨j, ?_, found⟩
  by_contra last
  have same : j = ⟨i, inside⟩ := Fin.ext (by simp only; omega)
  exact here (same ▸ found)

/-! ## The producer -/

namespace Inv

theorem producer_walks (inv : Inv s) {old : Producer} (at' : s.producer = old) (next : Producer)
    (semP semC : Nat) (cnt : Int) (free : semP + next.claimed = s.semP + old.claimed)
    (full : semC + next.filled = s.semC + old.filled) (ready : next.Ready s.buff) :
    Inv { s with semP, semC, producer := next, proCnt := cnt } where
  free := by
    have before := inv.free
    rw [at'] at before
    simp only
    omega
  full := by
    have before := inv.full
    rw [at'] at before
    simp only
    omega
  producer := ready
  consumer := inv.consumer
  conserved := inv.conserved

/-- While the producer writes to a free slot, the consumer is not at it. -/
theorem consumer_undisturbed (inv : Inv s) (empty : (s.buff i).b = 0) (item : Item) :
    s.consumer.Ready (Function.update s.buff i item) := by
  apply inv.consumer.stable
  intro j occupied
  have other : j ≠ i := by
    rintro rfl
    exact occupied empty
  exact Function.update_of_ne other ..

theorem producer_writesA (inv : Inv s) (at' : s.producer = .writeA i) (rd2 : Int) :
    Inv { s with buff := Function.update s.buff i ⟨rd2, (s.buff i).b⟩, producer := .writeB i rd2 } := by
  set s' : State := { s with buff := Function.update s.buff i ⟨rd2, (s.buff i).b⟩, producer := .writeB i rd2 }
  have ready := inv.producer
  have free := inv.free
  have full := inv.full
  rw [at'] at ready free full
  have empty : (s.buff i).b = 0 := ready
  have vacant : held Item.vacant s'.buff = held Item.vacant s.buff := held_update_eq rfl
  have occupied : held Item.occupied s'.buff = held Item.occupied s.buff := held_update_eq rfl
  -- The slot is free before and after, whatever its `a`.
  have same : content s' = content s := by
    funext j
    by_cases here : j = i
    · simp [s', content, here, empty]
    · simp [s', content, here]
  refine ⟨free.trans vacant.symm, full.trans occupied.symm, ?_, inv.consumer_undisturbed empty _, ?_⟩
  · simp [s', Producer.Ready, empty]
  · rw [items, same]
    exact inv.conserved

theorem producer_writesB (inv : Inv s) {rd2 : Int} (at' : s.producer = .writeB i rd2) {rd3 : Int} (nonzero : rd3 ≠ 0) :
    Inv { s with
      buff := Function.update s.buff i ⟨(s.buff i).a, rd3⟩,
      produced := ⟨rd2, rd3⟩ ::ₘ s.produced
      producer := .post } := by
  set s' : State := { s with
    buff := Function.update s.buff i ⟨(s.buff i).a, rd3⟩,
    produced := ⟨rd2, rd3⟩ ::ₘ s.produced
    producer := .post }
  have ready := inv.producer
  have free := inv.free
  have full := inv.full
  rw [at'] at ready free full
  obtain ⟨empty, first⟩ := ready
  have vacant : held Item.vacant s'.buff + 1 = held Item.vacant s.buff := by
    have update := held_update Item.vacant s.buff i ⟨(s.buff i).a, rd3⟩
    have before : (s.buff i).vacant = 1 := if_pos empty
    have after : Item.vacant ⟨(s.buff i).a, rd3⟩ = 0 := if_neg nonzero
    rwa [before, after, Nat.add_zero] at update
  have occupied : held Item.occupied s'.buff = held Item.occupied s.buff + 1 := by
    have update := held_update Item.occupied s.buff i ⟨(s.buff i).a, rd3⟩
    have before : (s.buff i).occupied = 0 := if_pos empty
    have after : Item.occupied ⟨(s.buff i).a, rd3⟩ = 1 := if_neg nonzero
    rwa [before, after, Nat.add_zero] at update
  have elsewhere : s.consumer ≠ .clearB i := by
    intro clearing
    have busy := inv.consumer
    rw [clearing] at busy
    exact busy empty
  have filled : content s' = Function.update (content s) i (some ⟨rd2, rd3⟩) := by
    funext j
    by_cases here : j = i
    · simp [s', content, here, nonzero, elsewhere, first]
    · simp [s', content, here]
  refine ⟨?_, ?_, trivial, inv.consumer_undisturbed empty _, ?_⟩
  · change s.semP + 0 + s.consumer.freed = _
    simp only [Producer.claimed] at free
    omega
  · change s.semC + 1 + s.consumer.claimed = _
    simp only [Producer.filled] at full
    omega
  · rw [items_fill filled (by simp [content, empty])]
    change ⟨rd2, rd3⟩ ::ₘ s.produced = s.consumed + (items s + {⟨rd2, rd3⟩})
    rw [inv.conserved, ← add_assoc, Multiset.add_comm _ {_}, Multiset.singleton_add]

theorem producer_step (inv : Inv s) (rand : Nat) (edge : producerStep s rand = some s') : Inv s' := by
  have ready := inv.producer
  unfold producerStep at edge
  cases at' : s.producer with
  | test =>
    simp only [at', Option.some.injEq] at edge
    cases edge
    split_ifs
    · exact inv.producer_walks at' _ _ _ _ rfl rfl trivial
    · exact inv.producer_walks at' _ _ _ _ rfl rfl trivial
  | getvalue =>
    simp only [at', Option.some.injEq] at edge
    cases edge
    exact inv.producer_walks at' _ _ _ _ rfl rfl trivial
  | wait =>
    simp only [at', Option.ite_none_right_eq_some, Option.some.injEq] at edge
    obtain ⟨available, rfl⟩ := edge
    have free := inv.free
    obtain ⟨j, vacant⟩ := exists_vacant (show 0 < held Item.vacant s.buff by omega)
    refine inv.producer_walks at' _ _ _ _ ?_ rfl ⟨j, Nat.zero_le j, vacant⟩
    simp only [Producer.claimed]
    omega
  | scan i =>
    rw [at'] at ready
    obtain ⟨j, ahead, vacant⟩ := ready
    -- There is a free slot ahead, so the scan has not left the array.
    have inside : i < 32 := by omega
    simp only [at', dif_pos inside, Option.some.injEq] at edge
    cases edge
    split_ifs with here
    · exact inv.producer_walks at' _ _ _ _ rfl rfl here
    · exact inv.producer_walks at' _ _ _ _ rfl rfl (next_ahead inside ⟨j, ahead, vacant⟩ here)
  | writeA i =>
    simp only [at', Option.some.injEq] at edge
    cases edge
    exact inv.producer_writesA at' _
  | writeB i rd2 =>
    simp only [at', Option.some.injEq] at edge
    cases edge
    exact inv.producer_writesB at' (by omega)
  | post =>
    simp only [at', Option.some.injEq] at edge
    cases edge
    exact inv.producer_walks at' _ _ _ _ rfl rfl trivial
  | done =>
    simp only [at'] at edge
    cases edge

/-! ## The consumer -/

theorem consumer_walks (inv : Inv s) {old : Consumer} (at' : s.consumer = old) (next : Consumer)
    (semP semC : Nat) (cnt : Int) (free : semP + next.freed = s.semP + old.freed)
    (full : semC + next.claimed = s.semC + old.claimed) (ready : next.Ready s.buff)
    (clears : ∀ i, old ≠ .clearB i ∧ next ≠ .clearB i) :
    Inv { s with semP, semC, consumer := next, comCnt := cnt } where
  free := by
    have before := inv.free
    rw [at'] at before
    simp only
    omega
  full := by
    have before := inv.full
    rw [at'] at before
    simp only
    omega
  producer := inv.producer
  consumer := ready
  conserved := by
    have same : items { s with semP, semC, consumer := next, comCnt := cnt } = items s := by
      refine items_congr rfl fun i => ?_
      rw [at']
      exact iff_of_false (clears i).2 (clears i).1
    rw [same]
    exact inv.conserved

/-- While the consumer writes to a slot that is not free, the producer is not at it. -/
theorem producer_undisturbed (inv : Inv s) (full : (s.buff i).b ≠ 0) (item : Item) :
    s.producer.Ready (Function.update s.buff i item) := by
  apply inv.producer.stable
  intro j vacant
  have other : j ≠ i := by
    rintro rfl
    exact full vacant
  exact Function.update_of_ne other ..

theorem consumer_clearsA (inv : Inv s) {a b : Int} (at' : s.consumer = .clearA i a b) :
    Inv { s with
      buff := Function.update s.buff i ⟨0, (s.buff i).b⟩,
      consumed := ⟨a, b⟩ ::ₘ s.consumed
      consumer := .clearB i } := by
  set s' : State := { s with
    buff := Function.update s.buff i ⟨0, (s.buff i).b⟩,
    consumed := ⟨a, b⟩ ::ₘ s.consumed
    consumer := .clearB i }
  have ready := inv.consumer
  have free := inv.free
  have full := inv.full
  rw [at'] at ready free full
  obtain ⟨present, printed⟩ := ready
  have vacant : held Item.vacant s'.buff = held Item.vacant s.buff := held_update_eq rfl
  have occupied : held Item.occupied s'.buff = held Item.occupied s.buff := held_update_eq rfl
  have taken : content s' = Function.update (content s) i none := by
    funext j
    by_cases here : j = i
    · simp [s', content, here]
    · simp [s', content, here, at', Ne.symm here]
  have found : content s i = some ⟨a, b⟩ := by
    rw [← printed]
    simp [content, present, at']
  refine ⟨free.trans vacant.symm, full.trans occupied.symm, inv.producer_undisturbed present _, ?_, ?_⟩
  · simp [s', Consumer.Ready, present]
  · change s.produced = ⟨a, b⟩ ::ₘ s.consumed + items s'
    rw [inv.conserved, items_take taken found, ← add_assoc, Multiset.add_comm _ {_}, Multiset.singleton_add,
      Multiset.cons_add]

theorem consumer_clearsB (inv : Inv s) (at' : s.consumer = .clearB i) :
    Inv { s with buff := Function.update s.buff i ⟨(s.buff i).a, 0⟩, consumer := .post } := by
  set s' : State := { s with buff := Function.update s.buff i ⟨(s.buff i).a, 0⟩, consumer := .post }
  have ready := inv.consumer
  have free := inv.free
  have full := inv.full
  rw [at'] at ready free full
  have present : (s.buff i).b ≠ 0 := ready
  have vacant : held Item.vacant s'.buff = held Item.vacant s.buff + 1 := by
    have update := held_update Item.vacant s.buff i ⟨(s.buff i).a, 0⟩
    have before : (s.buff i).vacant = 0 := if_neg present
    have after : Item.vacant ⟨(s.buff i).a, 0⟩ = 1 := rfl
    rwa [before, after, Nat.add_zero] at update
  have occupied : held Item.occupied s'.buff + 1 = held Item.occupied s.buff := by
    have update := held_update Item.occupied s.buff i ⟨(s.buff i).a, 0⟩
    have before : (s.buff i).occupied = 1 := if_neg present
    have after : Item.occupied ⟨(s.buff i).a, 0⟩ = 0 := rfl
    rwa [before, after, Nat.add_zero] at update
  -- The item left the slot when its `a` was cleared.
  have same : content s' = content s := by
    funext j
    by_cases here : j = i
    · simp [s', content, here, at']
    · simp [s', content, here, at', Ne.symm here]
  refine ⟨?_, ?_, inv.producer_undisturbed present _, trivial, ?_⟩
  · change s.semP + s.producer.claimed + 1 = _
    simp only [Consumer.freed] at free
    omega
  · change s.semC + s.producer.filled + 0 = _
    simp only [Consumer.claimed] at full
    omega
  · rw [items, same]
    exact inv.conserved

theorem consumer_step (inv : Inv s) (edge : consumerStep s = some s') : Inv s' := by
  have ready := inv.consumer
  unfold consumerStep at edge
  cases at' : s.consumer with
  | test =>
    simp only [at', Option.some.injEq] at edge
    cases edge
    split_ifs
    · exact inv.consumer_walks at' _ _ _ _ rfl rfl trivial fun _ => ⟨nofun, nofun⟩
    · exact inv.consumer_walks at' _ _ _ _ rfl rfl trivial fun _ => ⟨nofun, nofun⟩
  | getvalue =>
    simp only [at', Option.some.injEq] at edge
    cases edge
    exact inv.consumer_walks at' _ _ _ _ rfl rfl trivial fun _ => ⟨nofun, nofun⟩
  | wait =>
    simp only [at', Option.ite_none_right_eq_some, Option.some.injEq] at edge
    obtain ⟨available, rfl⟩ := edge
    have full := inv.full
    obtain ⟨j, occupied⟩ := exists_occupied (show 0 < held Item.occupied s.buff by omega)
    refine inv.consumer_walks at' _ _ _ _ rfl ?_ ⟨j, Nat.zero_le j, occupied⟩ fun _ => ⟨nofun, nofun⟩
    simp only [Consumer.claimed]
    omega
  | scan i =>
    rw [at'] at ready
    obtain ⟨j, ahead, occupied⟩ := ready
    have inside : i < 32 := by omega
    simp only [at', dif_pos inside, Option.some.injEq] at edge
    cases edge
    split_ifs with here
    · exact inv.consumer_walks at' _ _ _ _ rfl rfl here fun _ => ⟨nofun, nofun⟩
    · exact inv.consumer_walks at' _ _ _ _ rfl rfl (next_ahead inside ⟨j, ahead, occupied⟩ here)
        fun _ => ⟨nofun, nofun⟩
  | readA i =>
    simp only [at', Option.some.injEq] at edge
    cases edge
    rw [at'] at ready
    exact inv.consumer_walks at' _ _ _ _ rfl rfl ⟨ready, rfl⟩ fun _ => ⟨nofun, nofun⟩
  | sleepB i a =>
    simp only [at', Option.some.injEq] at edge
    cases edge
    rw [at'] at ready
    exact inv.consumer_walks at' _ _ _ _ rfl rfl ready fun _ => ⟨nofun, nofun⟩
  | readB i a =>
    simp only [at', Option.some.injEq] at edge
    cases edge
    rw [at'] at ready
    obtain ⟨present, rfl⟩ := ready
    exact inv.consumer_walks at' _ _ _ _ rfl rfl ⟨present, rfl⟩ fun _ => ⟨nofun, nofun⟩
  | clearA i a b =>
    simp only [at', Option.some.injEq] at edge
    cases edge
    exact inv.consumer_clearsA at'
  | clearB i =>
    simp only [at', Option.some.injEq] at edge
    cases edge
    exact inv.consumer_clearsB at'
  | post =>
    simp only [at', Option.some.injEq] at edge
    cases edge
    exact inv.consumer_walks at' _ _ _ _ rfl rfl trivial fun _ => ⟨nofun, nofun⟩
  | done =>
    simp only [at'] at edge
    cases edge

theorem preserved (inv : Inv s) {t : Thread} (edge : Step s t s') : Inv s' := by
  cases t with
  | producer rand => exact inv.producer_step rand edge
  | consumer => exact inv.consumer_step edge

/-- A slot with its `b` set that is not being cleared holds an item that was produced. -/
theorem complete (inv : Inv s) (full : (s.buff i).b ≠ 0) (kept : s.consumer ≠ .clearB i) :
    s.buff i ∈ s.produced := by
  have present : content s i = some (s.buff i) := by simp [content, full, kept]
  have emptied := held_update (fun o : Option Item => o.elim 0 ({·} : Item → Multiset Item)) (content s) i none
  rw [inv.conserved, Multiset.mem_add]
  right
  rw [present] at emptied
  simp only [Option.elim_some, Option.elim_none, add_zero] at emptied
  rw [items, ← emptied]
  simp

end Inv

/-! ## Whole runs -/

/-- The bounded buffer, for any two counts and any interleaving. Past its semaphore the
producer always has a free slot ahead of its scan, and it only writes to a slot that is
free and holds no item. Past its semaphore the consumer always has a complete item ahead
of its scan, which the slot it stops at holds until it clears it. And at every moment what
was produced is what was consumed and what is in the buffer. -/
theorem bounded_buffer_conserves (proNo comNo : Int) (threads : List Thread) (s : State)
    (run : Run Step (initial proNo comNo) threads s) :
    (∀ i, s.producer = .scan i → ∃ j : Slot, i ≤ j ∧ (s.buff j).b = 0) ∧
    (∀ i, (s.producer = .writeA i ∨ ∃ rd2, s.producer = .writeB i rd2) →
      (s.buff i).b = 0 ∧ content s i = none ∧ s.consumer.slot ≠ some i) ∧
    (∀ i, s.consumer = .scan i → ∃ j : Slot, i ≤ j ∧ (s.buff j).b ≠ 0 ∧ s.buff j ∈ s.produced) ∧
    (∀ i, s.consumer.slot = some i → s.consumer ≠ .clearB i →
      (s.buff i).b ≠ 0 ∧ s.buff i ∈ s.produced ∧ content s i = some (s.buff i)) ∧
    s.produced = s.consumed + items s := by
  have inv : Inv s := run.invariant Inv (fun inv edge => inv.preserved edge) (inv_initial proNo comNo)
  have producer := inv.producer
  have consumer := inv.consumer
  refine ⟨fun i at' => ?_, fun i at' => ?_, fun i at' => ?_, fun i found kept => ?_, inv.conserved⟩
  · rw [at'] at producer
    exact producer
  · have empty : (s.buff i).b = 0 := by
      rcases at' with at' | ⟨rd2, at'⟩
      · rw [at'] at producer
        exact producer
      · rw [at'] at producer
        exact producer.1
    refine ⟨empty, by simp [content, empty], fun found => ?_⟩
    exact consumer.slot_ne found empty
  · rw [at'] at consumer
    obtain ⟨j, ahead, full⟩ := consumer
    exact ⟨j, ahead, full, inv.complete full (by rw [at']; nofun)⟩
  · have full := consumer.slot_ne found
    exact ⟨full, inv.complete full kept, by simp [content, full, kept]⟩

/-- The producer has filled one slot, and the consumer is at it. -/
theorem bounded_buffer_conserves_one_item :
    ∃ s, Run Step (initial 1 1) (List.replicate 7 (.producer 3) ++ List.replicate 4 .consumer) s ∧
      s.consumer = .readA 0 ∧ s.produced = {⟨3, 5⟩} ∧ s.produced = s.consumed + items s := by
  have result : (execute step (initial 1 1) (List.replicate 7 (.producer 3) ++
      List.replicate 4 .consumer)).map (fun s => (s.consumer, s.produced)) = some (.readA 0, {⟨3, 5⟩}) := by
    decide +kernel
  obtain ⟨s, result, ends⟩ := Option.map_eq_some_iff.mp result
  have run := run_of_execute result
  obtain ⟨consumer, produced⟩ := Prod.mk.inj ends
  exact ⟨s, run, consumer, produced, (bounded_buffer_conserves 1 1 _ s run).2.2.2.2⟩

end Cs544.Concur.BoundedBuffer

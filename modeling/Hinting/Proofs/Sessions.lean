/-
# `Hinting.Proofs.Sessions` — a decoder in the hands of a client

A client advances a decoder one step at a time or several at once, and may walk on with a
copy of it (`Request`).  Whatever it asks for comes down to advances, and each of these
yields an instruction, a fault, or nothing:

    requests    next   skip 2    fork   next    next
    advances    i₁     i₂  i₃           fault   nothing
    position    f₁     f₂  f₃           o + 1   o + 1

There are five things that an advance can do (`Decoder.Advances`).  What holds at any time
of a session is read off them: the position and the bytes left make up the program, each
item took at least one byte, and the walk has ended exactly if some advance yielded no
instruction (`Decoder.Sound`).  One advance preserves this (`Sound.advance`), hence a
request does, hence a session, and `session_invariant` says what it comes to.
-/
import Hinting.Proofs.Stream

namespace Hinting

namespace Decoder

/-! ## What an advance can do -/

/-- `d.Advances s d'`: advancing the decoder `d` yields `s` and leaves `d'`. -/
inductive Advances (d : Decoder) : Step → Decoder → Prop
  | stays : d.ended = true → Advances d (.ended .complete) d
  | complete : d.ended = false → d.rest = [] →
      Advances d (.ended .complete) { d with ended := true }
  | unassigned {b : UInt8} {rest : Bytes} : d.ended = false → d.rest = b :: rest →
      Advances d (.ended (.unassigned b d.position)) ⟨d.cursor.ahead 1, d.depth, true⟩
  | cutOff (op : Operation) {b : UInt8} {rest : Bytes} : d.ended = false → d.rest = b :: rest →
      Advances d (.ended (.cutOff ⟨op, d.position, d.cursor.size⟩)) d.spent
  | command {c : Command} {rest : Bytes} : d.ended = false → d.rest = c.encode ++ rest →
      Advances d (.instruction (c.placed d.position (c.indentAt d.depth))) (d.past c)

theorem advances_next (d : Decoder) : d.Advances d.next.1 d.next.2 := by
  cases ended : d.ended with
  | true =>
      rw [next_of_ended ended]
      exact .stays ended
  | false =>
      rw [next]
      cases fetched : Command.fetch d.rest with
      | nothing =>
          rw [step_of_nothing ended fetched]
          exact .complete ended (Command.eq_nil_of_fetch fetched)
      | unassigned b =>
          obtain ⟨rest, left, _⟩ := Command.eq_cons_of_fetch fetched
          rw [step_of_unassigned ended fetched]
          exact .unassigned ended left
      | cutOff op =>
          obtain ⟨b, rest, left⟩ := Command.exists_cons_of_cutOff fetched
          rw [step_of_cutOff ended fetched]
          exact .cutOff op ended left
      | command c rest =>
          rw [step_of_command ended fetched]
          exact .command ended (Command.eq_encode_append_of_fetch fetched).1

section
variable {d d' : Decoder} {s : Step}

/-- No byte is lost: what is taken off the rest is added to the position. -/
theorem Advances.whole (h : d.Advances s d') :
    d'.position + d'.rest.length = d.position + d.rest.length := by
  cases h with
  | stays | complete => rfl
  | unassigned _ left =>
      show d.position + 1 + (d.cursor.ahead 1).rest.length = _
      rw [Cursor.rest_ahead_one left, left, List.length_cons]
      exact Nat.add_right_comm _ _ _
  | cutOff _ _ left =>
      rw [rest_spent]
      exact (Cursor.position_add_length_rest (Cursor.inBounds_of_cons left)).symm
  | @command c rest _ left =>
      rw [rest_past left, left, List.length_append, c.length_encode]
      exact Nat.add_assoc _ _ _

theorem Advances.item_le (h : d.Advances s d') :
    d.position + s.item?.toList.length ≤ d'.position := by
  cases h with
  | stays | complete | unassigned => exact Nat.le_refl _
  | cutOff _ _ left => exact Cursor.inBounds_of_cons left
  | @command c _ _ _ => exact Nat.add_le_add_left c.size_pos _

theorem Advances.position_le (h : d.Advances s d') : d.position ≤ d'.position :=
  Nat.le_trans (Nat.le_add_right _ _) h.item_le

theorem Advances.goes_on (h : d.Advances s d') (goes : d'.ended = false) :
    d.ended = false ∧ ∃ i, s = .instruction i ∧ d'.position = i.finish := by
  cases h with
  | stays stop => cases stop.symm.trans goes
  | complete | unassigned | cutOff => cases goes
  | command went _ => exact ⟨went, _, rfl, rfl⟩

theorem Advances.ends (h : d.Advances s d') (stop : d'.ended = true) : ∃ e, s = .ended e := by
  cases h with
  | stays | complete | unassigned | cutOff => exact ⟨_, rfl⟩
  | command => cases stop

theorem Advances.exhausts (h : d.Advances s d') (stop : d'.ended = true)
    (faultless : ∀ f, s.item? ≠ some (.error f)) : d' = d ∧ d.ended = true ∨ d'.rest = [] := by
  cases h with
  | stays stop => exact .inl ⟨rfl, stop⟩
  | complete _ nothing => exact .inr nothing
  | unassigned => exact absurd rfl (faultless _)
  | cutOff => exact .inr d.rest_spent
  | command => cases stop

theorem Advances.fault (h : d.Advances s d') {f : Fault} (yields : s.item? = some (.error f)) :
    d'.depth = d.depth ∧ d'.position = f.offset + 1 := by
  cases h with
  | stays | complete | cutOff | command => cases yields
  | unassigned =>
      cases yields
      exact ⟨rfl, rfl⟩

theorem ended_of_next {e : Ending} (h : d.next = (.ended e, d')) : d'.ended = true := by
  have advance := d.advances_next
  rw [h] at advance
  cases stop : d'.ended with
  | true => rfl
  | false =>
      obtain ⟨_, i, instruction, _⟩ := advance.goes_on stop
      cases instruction

theorem ended_of_item? (h : d.next.1.item? = none) : d.next.2.ended = true := by
  cases step : d.next with
  | mk s d' =>
      rw [step] at h
      cases s with
      | instruction i => cases h
      | ended e => exact ended_of_next step

end

/-! ## Several steps at once -/

theorem skip_of_ended {d : Decoder} (h : d.ended = true) (count : Nat) :
    d.skip count = (0, d) := by
  cases count with
  | zero => rfl
  | succ count => rw [skip, next_of_ended h]

/-- Several steps are one and then the others, also where the first of them ends the walk. -/
theorem snd_skip_succ (d : Decoder) (count : Nat) :
    (d.skip (count + 1)).2 = (d.next.2.skip count).2 := by
  rw [skip]
  cases step : d.next with
  | mk s d' =>
      cases s with
      | instruction i => rfl
      | ended e => rw [skip_of_ended (ended_of_next step)]

theorem position_le_skip : ∀ (count : Nat) (d : Decoder),
    d.position ≤ (d.skip count).2.position := by
  intro count
  induction count with
  | zero => intro d; exact Nat.le_refl _
  | succ count ih =>
      intro d
      rw [snd_skip_succ]
      exact Nat.le_trans d.advances_next.position_le (ih d.next.2)

end Decoder

/-! ## Requests, and the advances they make -/

/-- What a client can ask of a decoder. -/
inductive Request where
  | next
  | skip (count : Nat)
  /-- Walks on to the end with a copy. -/
  | fork

/-- One advance of a decoder: what it yields, and the decoder on either side of it. -/
structure Advance where
  before : Decoder
  item? : Option (Except Fault Instruction)
  after : Decoder

namespace Decoder

def advance (d : Decoder) : Advance := ⟨d, d.next.1.item?, d.next.2⟩

/-- Up to `count` advances, and none after the first that yields nothing. -/
def advances : Nat → Decoder → List Advance
  | 0, _ => []
  | count + 1, d =>
    match d.next.1.item? with
    | none => [d.advance]
    | some _ => d.advance :: advances count d.next.2

def after (d : Decoder) : Request → Decoder
  | .next => d.next.2
  | .skip count => (d.skip count).2
  | .fork => d

/-- The advances that a request makes. -/
def advancesFor (d : Decoder) : Request → List Advance
  | .next => [d.advance]
  | .skip count => d.advances count
  | .fork => []

def afterAll (d : Decoder) : List Request → Decoder
  | [] => d
  | r :: rs => (d.after r).afterAll rs

/-- The advances that requests in turn make. -/
def session (d : Decoder) : List Request → List Advance
  | [] => []
  | r :: rs => d.advancesFor r ++ (d.after r).session rs

theorem eq_advance_of_mem_advances {a : Advance} : ∀ {count : Nat} {d : Decoder},
    a ∈ d.advances count → ∃ d' : Decoder, a = d'.advance := by
  intro count
  induction count with
  | zero => intro d h; cases h
  | succ count ih =>
      intro d h
      rw [advances] at h
      split at h
      · exact ⟨d, List.mem_singleton.mp h⟩
      · exact (List.mem_cons.mp h).elim (fun first => ⟨d, first⟩) ih

theorem eq_advance_of_mem_session {a : Advance} : ∀ {rs : List Request} {d : Decoder},
    a ∈ d.session rs → ∃ d' : Decoder, a = d'.advance := by
  intro rs
  induction rs with
  | nil => intro d h; cases h
  | cons r rs ih =>
      intro d h
      rw [session] at h
      rcases List.mem_append.mp h with first | later
      · cases r with
        | next => exact ⟨d, List.mem_singleton.mp first⟩
        | skip count => exact eq_advance_of_mem_advances first
        | fork => cases first
      · exact ih later

theorem position_le_after (d : Decoder) (r : Request) : d.position ≤ (d.after r).position := by
  cases r with
  | next => exact d.advances_next.position_le
  | skip count => exact position_le_skip count d
  | fork => exact Nat.le_refl _

theorem afterAll_of_ended {d : Decoder} (h : d.ended = true) :
    ∀ rs : List Request, d.afterAll rs = d := by
  intro rs
  induction rs with
  | nil => rfl
  | cons r rs ih =>
      have same : d.after r = d := by
        cases r with
        | next => rw [after, next_of_ended h]
        | skip count => rw [after, skip_of_ended h]
        | fork => rfl
      rw [afterAll, same, ih]

/-! ## What holds at any time -/

/-- What holds of a decoder for the program `p` that has made some advances. -/
structure Sound (p : Bytes) (done : List Advance) (d : Decoder) : Prop where
  /-- The bytes left are those from the position on. -/
  whole : d.position + d.rest.length = p.length
  /-- Each item took at least one byte. -/
  items_le : (done.filterMap Advance.item?).length ≤ d.position
  /-- Before the end each advance yielded an instruction, and the position is where the last
  one stops. -/
  running : d.ended = false → ∃ is : List Instruction,
    done.map Advance.item? = is.map (fun i => some (.ok i)) ∧
      d.position = (is.getLast?.map Instruction.finish).getD 0
  /-- Only an advance that yields no instruction ends the walk. -/
  ended : d.ended = true → ∃ a ∈ done, ∀ i, a.item? ≠ some (.ok i)
  /-- Without a fault the walk ends at the end of the program. -/
  exhausted : d.ended = true → (∀ a ∈ done, ∀ f, a.item? ≠ some (.error f)) →
    d.position = p.length

theorem sound_start (p : Bytes) : Sound p [] (start p) where
  whole := Nat.zero_add _
  items_le := Nat.le_refl _
  running _ := ⟨[], rfl, rfl⟩
  ended h := by cases h
  exhausted h := by cases h

section
variable {p : Bytes} {done : List Advance} {d : Decoder}

theorem Sound.advance (h : Sound p done d) : Sound p (done ++ [d.advance]) d.next.2 := by
  have step := d.advances_next
  constructor
  · exact step.whole.trans h.whole
  · have item := step.item_le
    have items := h.items_le
    rw [List.filterMap_append, List.length_append]
    have one : ([d.advance].filterMap Advance.item?).length = d.next.1.item?.toList.length := by
      rw [Decoder.advance]
      cases d.next.1.item? <;> rfl
    omega
  · intro goes
    obtain ⟨went, i, yields, position⟩ := step.goes_on goes
    obtain ⟨is, items, _⟩ := h.running went
    refine ⟨is ++ [i], ?_, ?_⟩
    · rw [List.map_append, List.map_append, items, Decoder.advance, yields]
      rfl
    · rw [position, List.getLast?_concat]
      rfl
  · intro stop
    obtain ⟨e, yields⟩ := step.ends stop
    refine ⟨d.advance, List.mem_append_right _ List.mem_cons_self, ?_⟩
    intro i instruction
    rw [Decoder.advance, yields] at instruction
    cases fault : e.fault? <;> simp [Step.item?, fault] at instruction
  · intro stop faultless
    have last : ∀ f, d.next.1.item? ≠ some (.error f) :=
      faultless d.advance (List.mem_append_right _ List.mem_cons_self)
    rcases step.exhausts stop last with ⟨same, stopped⟩ | nothing
    · rw [same]
      exact h.exhausted stopped fun a ha => faultless a (List.mem_append_left _ ha)
    · have whole := step.whole.trans h.whole
      rw [nothing] at whole
      exact whole

theorem Sound.advances : ∀ {count : Nat} {done : List Advance} {d : Decoder}, Sound p done d →
    Sound p (done ++ d.advances count) (d.skip count).2 := by
  intro count
  induction count with
  | zero => intro done d h; rw [Decoder.advances, List.append_nil]; exact h
  | succ count ih =>
      intro done d h
      rw [snd_skip_succ, Decoder.advances]
      cases item : d.next.1.item? with
      | none =>
          rw [skip_of_ended (ended_of_item? item)]
          exact h.advance
      | some yields =>
          have rest := ih h.advance
          rw [List.append_assoc] at rest
          exact rest

theorem Sound.after (h : Sound p done d) (r : Request) :
    Sound p (done ++ d.advancesFor r) (d.after r) := by
  cases r with
  | next => exact h.advance
  | skip count => exact h.advances
  | fork =>
      rw [advancesFor, List.append_nil]
      exact h

theorem Sound.afterAll : ∀ {rs : List Request} {done : List Advance} {d : Decoder},
    Sound p done d → Sound p (done ++ d.session rs) (d.afterAll rs) := by
  intro rs
  induction rs with
  | nil => intro done d h; rw [session, List.append_nil]; exact h
  | cons r rs ih =>
      intro done d h
      have rest := ih (h.after r)
      rw [List.append_assoc] at rest
      exact rest

end

/-! ## What a client can rely on -/

section
variable {p : Bytes} {done : List Advance} {d : Decoder} (h : Sound p done d)
include h

theorem Sound.ended_of_other {a : Advance} (ha : a ∈ done) (other : ∀ i, a.item? ≠ some (.ok i)) :
    d.ended = true := by
  cases goes : d.ended with
  | true => rfl
  | false =>
      obtain ⟨is, items, _⟩ := h.running goes
      obtain ⟨i, _, yields⟩ := List.mem_map.mp (items ▸ List.mem_map_of_mem ha)
      exact absurd yields.symm (other i)

theorem Sound.position_eq {is : List Instruction}
    (items : done.map Advance.item? = is.map fun i => some (.ok i)) :
    d.position = match is.getLast? with
      | none => 0
      | some i => i.offset + i.length := by
  cases stop : d.ended with
  | true =>
      obtain ⟨a, ha, other⟩ := h.ended stop
      obtain ⟨i, _, yields⟩ := List.mem_map.mp (items ▸ List.mem_map_of_mem ha)
      exact absurd yields.symm (other i)
  | false =>
      obtain ⟨is', items', position⟩ := h.running stop
      have same : is = is' := by
        refine (List.map_inj_right fun i j eq => ?_).mp (items.symm.trans items')
        exact Except.ok.inj (Option.some.inj eq)
      rw [position, same]
      cases is'.getLast? <;> rfl

/-- Where each byte has made an item, none is left for another. -/
theorem Sound.nothing_of_items (full : (done.filterMap Advance.item?).length = p.length) :
    d.next.1.item? = none := by
  have step := d.advances_next
  have item := step.item_le
  have whole := step.whole.trans h.whole
  have items := h.items_le
  cases next : d.next.1.item? with
  | none => rfl
  | some yields =>
      rw [next, Option.toList_some, List.length_singleton] at item
      omega

end

/-- **What holds at any time of a session.**  Whatever a client has asked of a decoder: the
position never goes back, and never beyond the program.  As long as each advance has yielded
an instruction, it is where the last one stops.  A fault leaves the depth alone and takes its
opcode off.  Where an advance has yielded nothing and none a fault, the position is the end of
the program.  Once an advance has yielded a fault or nothing, nothing is yielded and nothing
changes any more.  And there are no more items than bytes. -/
theorem session_invariant (p : Bytes) (rs : List Request) :
    let done := (start p).session rs
    let d := (start p).afterAll rs
    (d.position ≤ p.length ∧ ∀ r, d.position ≤ (d.after r).position) ∧
      (∀ is : List Instruction, done.map Advance.item? = is.map (fun i => some (.ok i)) →
        d.position = match is.getLast? with
          | none => 0
          | some i => i.offset + i.length) ∧
      (∀ a ∈ done, ∀ f, a.item? = some (.error f) →
        a.after.depth = a.before.depth ∧ a.after.position = f.offset + 1) ∧
      ((∃ a ∈ done, a.item? = none) → (∀ a ∈ done, ∀ f, a.item? ≠ some (.error f)) →
        d.position = p.length) ∧
      ((∃ a ∈ done, ∀ i, a.item? ≠ some (.ok i)) →
        d.next.1.item? = none ∧ (∀ count, (d.skip count).1 = 0) ∧ d.run.items = [] ∧
          ∀ rs', d.afterAll rs' = d) ∧
      (done.filterMap Advance.item?).length ≤ p.length ∧
      ((done.filterMap Advance.item?).length = p.length → d.next.1.item? = none) := by
  intro done d
  have sound : Sound p done d := (sound_start p).afterAll
  have inside : d.position ≤ p.length := Nat.le.intro sound.whole
  refine ⟨⟨inside, d.position_le_after⟩, fun is => sound.position_eq, ?_, ?_, ?_,
    Nat.le_trans sound.items_le inside, sound.nothing_of_items⟩
  · intro a ha f yields
    obtain ⟨d', rfl⟩ := eq_advance_of_mem_session ha
    exact d'.advances_next.fault yields
  · rintro ⟨a, ha, nothing⟩ faultless
    refine sound.exhausted (sound.ended_of_other ha fun i yields => ?_) faultless
    cases nothing.symm.trans yields
  · rintro ⟨a, ha, other⟩
    have stop := sound.ended_of_other ha other
    refine ⟨?_, fun count => ?_, ?_, afterAll_of_ended stop⟩
    · rw [next_of_ended stop]
      rfl
    · rw [skip_of_ended stop]
    · rw [run_of_ended (next_of_ended stop)]
      rfl

end Decoder

end Hinting

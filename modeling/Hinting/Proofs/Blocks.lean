/-
# `Hinting.Proofs.Blocks` — blocks that close what they open

A stretch of a program is balanced (`Nesting.Balanced`) if its operations are

    B   ::=   ε   |   x B   |   IF B EIF B   |   IF B ELSE B EIF B   |   FDEF B ENDF B

where `x` neither opens nor closes a block.  What a stretch looks like depends on the
operations alone and not on the bytes, which may hold the opcode of a marker among the
operands of a push.

The depth is a counter that a closer never takes below zero, so in general a stretch that
is read at another depth is not merely shifted.  A balanced one is (`Balanced.indents_eq`),
since each of its closers finds the block that its opener opened, and the depth behind it
is the depth before it (`Balanced.depth_eq`):

    bytes     p      b                  q
    indents   …      those of b  + d    those after p
    depth     0      d                  d

Both are inductions over the grammar.  `block_in_context` says what follows for programs.
-/
import Mathlib
import Hinting.Proofs.Stream

namespace Hinting

/-! ## Depths along a list of operations -/

namespace Nesting

def depth (start : Nat) (ops : List Operation) : Nat :=
  ops.foldl (fun depth op => op.depthAfter (op.indentAt depth)) start

def indents (start : Nat) : List Operation → List Nat
  | [] => []
  | op :: ops => op.indentAt start :: indents (op.depthAfter (op.indentAt start)) ops

theorem depth_append (d : Nat) (ops ops' : List Operation) :
    depth d (ops ++ ops') = depth (depth d ops) ops' :=
  List.foldl_append

theorem indents_append (d : Nat) (ops ops' : List Operation) :
    indents d (ops ++ ops') = indents d ops ++ indents (depth d ops) ops' := by
  induction ops generalizing d with
  | nil => rfl
  | cons op ops ih => exact congrArg (_ :: ·) (ih _)

@[simp] theorem length_indents (d : Nat) (ops : List Operation) :
    (indents d ops).length = ops.length := by
  induction ops generalizing d with
  | nil => rfl
  | cons op ops ih => exact congrArg (· + 1) (ih _)

/-! ## The grammar -/

/-- The first and the last marker of a block. -/
inductive Encloses : Operation → Operation → Prop
  | conditional : Encloses .IF .EIF
  | function : Encloses .FDEF .ENDF

/-- A list of operations that closes the blocks it opens, and no others. -/
inductive Balanced : List Operation → Prop
  | nil : Balanced []
  | plain {x : Operation} {rest : List Operation} :
      x.opensBlock = false → x.closesBlock = false → Balanced rest → Balanced (x :: rest)
  | block {o m : Operation} {body rest : List Operation} :
      Encloses o m → Balanced body → Balanced rest → Balanced (o :: (body ++ m :: rest))
  | alternative {body other rest : List Operation} :
      Balanced body → Balanced other → Balanced rest →
      Balanced (.IF :: (body ++ .ELSE :: (other ++ .EIF :: rest)))

/-- `Opens o inside m`: the closer `m` closes what the opener `o` opened, with `inside`
between the two. -/
inductive Opens : Operation → List Operation → Operation → Prop
  | block {o m : Operation} {body : List Operation} :
      Encloses o m → Balanced body → Opens o body m
  | otherwise {body : List Operation} : Balanced body → Opens .IF body .ELSE
  | alternative {body other : List Operation} :
      Balanced body → Balanced other → Opens .IF (body ++ .ELSE :: other) .EIF

/-! ## Balanced lists at any depth -/

section
variable {x : Operation} (opens : x.opensBlock = false) (closes : x.closesBlock = false)
include opens closes

theorem depth_plain (d : Nat) (rest : List Operation) : depth d (x :: rest) = depth d rest := by
  have stays : x.depthAfter (x.indentAt d) = d := by
    simp [Operation.depthAfter, Operation.indentAt, opens, closes]
  show depth (x.depthAfter (x.indentAt d)) rest = depth d rest
  rw [stays]

theorem indents_plain (d : Nat) (rest : List Operation) :
    indents d (x :: rest) = d :: indents d rest := by
  simp [indents, Operation.depthAfter, Operation.indentAt, opens, closes]

end

section
variable {o m : Operation} {body other : List Operation}
  (body_level : ∀ d, depth d body = d) (other_level : ∀ d, depth d other = d)

include body_level in
theorem Encloses.depth_eq (h : Encloses o m) (d : Nat) (rest : List Operation) :
    depth d (o :: (body ++ m :: rest)) = depth d rest :=
  calc depth d (o :: (body ++ m :: rest))
      = depth (d + 1) (body ++ m :: rest) := by cases h <;> rfl
    _ = depth (depth (d + 1) body) (m :: rest) := depth_append (d + 1) body _
    _ = depth (d + 1) (m :: rest) := by rw [body_level]
    _ = depth d rest := by cases h <;> rfl

include body_level in
theorem Encloses.indents_eq (h : Encloses o m) (d : Nat) (rest : List Operation) :
    indents d (o :: (body ++ m :: rest)) = d :: (indents (d + 1) body ++ d :: indents d rest) :=
  calc indents d (o :: (body ++ m :: rest))
      = d :: indents (d + 1) (body ++ m :: rest) := by cases h <;> rfl
    _ = d :: (indents (d + 1) body ++ indents (d + 1) (m :: rest)) := by
        rw [indents_append, body_level]
    _ = d :: (indents (d + 1) body ++ d :: indents d rest) := by cases h <;> rfl

include body_level other_level

theorem depth_alternative (d : Nat) (rest : List Operation) :
    depth d (.IF :: (body ++ .ELSE :: (other ++ .EIF :: rest))) = depth d rest :=
  calc depth d (.IF :: (body ++ .ELSE :: (other ++ .EIF :: rest)))
      = depth (depth (d + 1) body) (.ELSE :: (other ++ .EIF :: rest)) := depth_append (d + 1) body _
    -- An `ELSE` one level down is written, and leaves the depth, as an `IF` here.
    _ = depth d (.IF :: (other ++ .EIF :: rest)) := by rw [body_level]; rfl
    _ = depth d rest := Encloses.conditional.depth_eq other_level d rest

theorem indents_alternative (d : Nat) (rest : List Operation) :
    indents d (.IF :: (body ++ .ELSE :: (other ++ .EIF :: rest)))
      = d :: (indents (d + 1) body ++ d :: (indents (d + 1) other ++ d :: indents d rest)) :=
  calc indents d (.IF :: (body ++ .ELSE :: (other ++ .EIF :: rest)))
      = d :: indents (d + 1) (body ++ .ELSE :: (other ++ .EIF :: rest)) := rfl
    _ = d :: (indents (d + 1) body ++ indents d (.IF :: (other ++ .EIF :: rest))) := by
        rw [indents_append, body_level]
        rfl
    _ = d :: (indents (d + 1) body ++ d :: (indents (d + 1) other ++ d :: indents d rest)) := by
        rw [Encloses.conditional.indents_eq other_level]

end

theorem Balanced.depth_eq {ops : List Operation} (h : Balanced ops) : ∀ d, depth d ops = d := by
  induction h with
  | nil => intro d; rfl
  | plain opens closes _ ih =>
      intro d
      rw [depth_plain opens closes, ih]
  | block encloses _ _ ih_body ih_rest =>
      intro d
      rw [encloses.depth_eq ih_body, ih_rest]
  | alternative _ _ _ ih_body ih_other ih_rest =>
      intro d
      rw [depth_alternative ih_body ih_other, ih_rest]

theorem Balanced.indents_add {ops : List Operation} (h : Balanced ops) :
    ∀ d k, indents (d + k) ops = (indents d ops).map (· + k) := by
  induction h with
  | nil => intro d k; rfl
  | plain opens closes _ ih =>
      intro d k
      rw [indents_plain opens closes, indents_plain opens closes, ih, List.map_cons]
  | block encloses body _ ih_body ih_rest =>
      intro d k
      simp only [encloses.indents_eq body.depth_eq, Nat.add_right_comm d k 1, ih_body, ih_rest,
        List.map_cons, List.map_append]
  | alternative body other _ ih_body ih_other ih_rest =>
      intro d k
      simp only [indents_alternative body.depth_eq other.depth_eq, Nat.add_right_comm d k 1,
        ih_body, ih_other, ih_rest, List.map_cons, List.map_append]

theorem Balanced.le_of_mem_indents {ops : List Operation} (h : Balanced ops) {d n : Nat}
    (hn : n ∈ indents d ops) : d ≤ n := by
  rw [← Nat.zero_add d, h.indents_add] at hn
  obtain ⟨m, _, rfl⟩ := List.mem_map.mp hn
  exact Nat.le_add_left d m

/-! ## Every closer has its opener -/

/-- `Opened front m`: the closer `m` closes what an opener in `front` opened. -/
def Opened (front : List Operation) (m : Operation) : Prop :=
  ∃ front' o inside, front = front' ++ o :: inside ∧ Opens o inside m

/-- Every closer in the list has its opener in the list. -/
def Answered (ops : List Operation) : Prop :=
  ∀ front m after, ops = front ++ m :: after → m.closesBlock = true → Opened front m

theorem Opened.append_left {front : List Operation} {m : Operation} (h : Opened front m)
    (ops : List Operation) : Opened (ops ++ front) m := by
  obtain ⟨front', o, inside, rfl, opens⟩ := h
  exact ⟨ops ++ front', o, inside, (List.append_assoc ops front' _).symm, opens⟩

theorem append_eq_append_cons {l l' front after : List Operation} {m : Operation}
    (h : l ++ l' = front ++ m :: after) :
    (∃ after', l = front ++ m :: after') ∨
      ∃ front', front = l ++ front' ∧ l' = front' ++ m :: after := by
  obtain ⟨front', rfl, second⟩ | ⟨between, rfl, second⟩ := List.append_eq_append_iff.mp h
  · exact .inr ⟨front', rfl, second⟩
  · cases between with
    | nil => exact .inr ⟨[], by simp, second.symm⟩
    | cons m' after' =>
        obtain ⟨rfl, _⟩ := List.cons.inj second
        exact .inl ⟨after', rfl⟩

theorem answered_nil : Answered [] := by
  intro front m after h
  cases front <;> cases h

theorem Answered.append {ops ops' : List Operation} (h : Answered ops) (h' : Answered ops') :
    Answered (ops ++ ops') := by
  intro front m after split closes
  obtain ⟨after', first⟩ | ⟨front', rfl, second⟩ := append_eq_append_cons split
  · exact h front m after' first closes
  · exact (h' front' m after second closes).append_left ops

theorem Answered.snoc {ops : List Operation} {x : Operation} (h : Answered ops)
    (hx : x.closesBlock = true → Opened ops x) : Answered (ops ++ [x]) := by
  intro front m after split closes
  obtain ⟨after', first⟩ | ⟨front', rfl, second⟩ := append_eq_append_cons split
  · exact h front m after' first closes
  · cases front' with
    | nil =>
        obtain ⟨rfl, _⟩ := List.cons.inj second
        rw [List.append_nil]
        exact hx closes
    | cons _ front' => cases front' <;> cases second

theorem Answered.cons {ops : List Operation} {x : Operation} (h : Answered ops)
    (stays : x.closesBlock = false) : Answered (x :: ops) := by
  have alone : Answered ([] ++ [x]) :=
    answered_nil.snoc fun closes => absurd closes (by rw [stays]; decide)
  exact alone.append h

theorem Balanced.answered {ops : List Operation} (h : Balanced ops) : Answered ops := by
  induction h with
  | nil => exact answered_nil
  | plain _ stays _ ih => exact ih.cons stays
  | @block o m body rest encloses balanced _ ih_body ih_rest =>
      have front : Answered (o :: body) := ih_body.cons (by cases encloses <;> rfl)
      have whole : Answered ((o :: body) ++ [m]) :=
        front.snoc fun _ => ⟨[], o, body, rfl, .block encloses balanced⟩
      simpa using whole.append ih_rest
  | @alternative body other rest balanced balanced' _ ih_body ih_other ih_rest =>
      have front : Answered (.IF :: body) := ih_body.cons rfl
      have first : Answered ((.IF :: body) ++ [.ELSE]) :=
        front.snoc fun _ => ⟨[], .IF, body, rfl, .otherwise balanced⟩
      have both : Answered ((.IF :: body) ++ [.ELSE] ++ other) := first.append ih_other
      have whole : Answered ((.IF :: body) ++ [.ELSE] ++ other ++ [.EIF]) :=
        both.snoc fun _ =>
          ⟨[], .IF, body ++ .ELSE :: other, by simp, .alternative balanced balanced'⟩
      simpa using whole.append ih_rest

end Nesting

/-! ## The instructions of a balanced program -/

open Nesting

/-- The instructions stand at the depths that their operations have. -/
def Indented (d : Nat) (is : List Instruction) : Prop :=
  is.map Instruction.indent = indents d (is.map Instruction.operation)

theorem indented_append {d : Nat} {is js : List Instruction} :
    Indented d (is ++ js) ↔
      Indented d is ∧ Indented (depth d (is.map Instruction.operation)) js := by
  unfold Indented
  rw [List.map_append, List.map_append, indents_append]
  constructor
  · intro h
    exact List.append_inj h (by simp)
  · rintro ⟨first, second⟩
    rw [first, second]

theorem indented_cons {d : Nat} {i : Instruction} {is : List Instruction} :
    Indented d (i :: is) ↔
      i.indent = i.operation.indentAt d ∧ Indented (i.operation.depthAfter i.indent) is := by
  unfold Indented
  constructor
  · intro h
    obtain ⟨first, rest⟩ := List.cons.inj h
    refine ⟨first, ?_⟩
    rw [first]
    exact rest
  · rintro ⟨first, rest⟩
    rw [first] at rest
    exact List.cons_eq_cons.mpr ⟨first, rest⟩

/-- How the blocks of instructions show in their indents. -/
structure Nested (is : List Instruction) : Prop where
  /-- A closer has an opener. -/
  opener : ∀ {front m after}, is = front ++ m :: after → m.operation.closesBlock = true →
    ∃ front' o inside, front = front' ++ o :: inside ∧
      Opens o.operation (inside.map Instruction.operation) m.operation
  /-- A closer stands where its opener stands. -/
  level : ∀ {front o inside m after}, is = front ++ o :: (inside ++ m :: after) →
    Opens o.operation (inside.map Instruction.operation) m.operation → m.indent = o.indent
  /-- What stands between two markers of a block is deeper. -/
  deeper : ∀ {front m inside m' after}, is = front ++ m :: (inside ++ m' :: after) →
    m.operation.opensBlock = true → m'.operation.closesBlock = true →
    Balanced (inside.map Instruction.operation) → ∀ i ∈ inside, m.indent < i.indent

section
variable {d : Nat} {front inside after : List Instruction} {m m' : Instruction}
  (h : Indented d (front ++ m :: (inside ++ m' :: after)))
  (opens : m.operation.opensBlock = true)
  (balanced : Balanced (inside.map Instruction.operation))
include h opens balanced

/-- Two markers with a balanced stretch between them stand at one depth. -/
theorem Indented.indent_eq (closes : m'.operation.closesBlock = true) : m'.indent = m.indent := by
  obtain ⟨_, rest⟩ := indented_append.mp h
  obtain ⟨_, rest⟩ := indented_cons.mp rest
  obtain ⟨_, rest⟩ := indented_append.mp rest
  rw [balanced.depth_eq, Operation.depthAfter, if_pos opens] at rest
  obtain ⟨first, _⟩ := indented_cons.mp rest
  rw [first, Operation.indentAt, if_pos closes, Nat.add_sub_cancel]

theorem Indented.lt_indent {i : Instruction} (hi : i ∈ inside) : m.indent < i.indent := by
  obtain ⟨_, rest⟩ := indented_append.mp h
  obtain ⟨_, rest⟩ := indented_cons.mp rest
  obtain ⟨within, _⟩ := indented_append.mp rest
  rw [Operation.depthAfter, if_pos opens] at within
  refine balanced.le_of_mem_indents ?_
  rw [← within]
  exact List.mem_map_of_mem hi

end

theorem Indented.nested {d : Nat} {is : List Instruction} (h : Indented d is)
    (balanced : Balanced (is.map Instruction.operation)) : Nested is where
  opener := by
    intro front m after split closes
    rw [split, List.map_append] at balanced
    obtain ⟨_, _, _, parts, opens⟩ := balanced.answered _ _ _ rfl closes
    obtain ⟨front', _, rfl, rfl, rest⟩ := List.map_eq_append_iff.mp parts
    obtain ⟨o, inside, rfl, rfl, rfl⟩ := List.map_eq_cons_iff.mp rest
    exact ⟨front', o, inside, rfl, opens⟩
  level := by
    rintro front o inside m after rfl matched
    generalize opener : o.operation = x, between : inside.map Instruction.operation = ops,
      closer : m.operation = y at matched
    cases matched with
    | block encloses body =>
        subst between
        refine h.indent_eq ?_ body ?_
        · rw [opener]
          cases encloses <;> rfl
        · rw [closer]
          cases encloses <;> rfl
    | otherwise body =>
        subst between
        exact h.indent_eq (by rw [opener]; rfl) body (by rw [closer]; rfl)
    | alternative body other =>
        obtain ⟨first, _, rfl, rfl, eq⟩ := List.map_eq_append_iff.mp between
        obtain ⟨e, second, rfl, turn, rfl⟩ := List.map_eq_cons_iff.mp eq
        have whole : Indented d (front ++ o :: (first ++ e :: (second ++ m :: after))) := by
          simpa using h
        have whole' : Indented d ((front ++ o :: first) ++ e :: (second ++ m :: after)) := by
          simpa using h
        calc m.indent
            = e.indent := whole'.indent_eq (by rw [turn]; rfl) other (by rw [closer]; rfl)
          _ = o.indent := whole.indent_eq (by rw [opener]; rfl) body (by rw [turn]; rfl)
  deeper := by
    rintro front m inside m' after rfl opens _ body i hi
    exact h.lt_indent opens body hi

/-! ## Programs -/

/-- The instruction some bytes and some levels on. -/
def Instruction.moved (bytes levels : Nat) (i : Instruction) : Instruction :=
  { i with offset := i.offset + bytes, indent := i.indent + levels }

namespace Stream

theorem depth_eq (d : Nat) (cs : List Command) :
    depth d cs = Nesting.depth d (cs.map Command.operation) :=
  (List.foldl_map (f := Command.operation)
    (g := fun depth op => op.depthAfter (op.indentAt depth))).symm

theorem map_operation_place (o d : Nat) (cs : List Command) :
    (place o d cs).map Instruction.operation = cs.map Command.operation := by
  induction cs generalizing o d with
  | nil => rfl
  | cons c cs ih => exact congrArg (c.operation :: ·) (ih _ _)

theorem indented_place (o d : Nat) (cs : List Command) : Indented d (place o d cs) := by
  induction cs generalizing o d with
  | nil => rfl
  | cons c cs ih => exact indented_cons.mpr ⟨rfl, ih _ _⟩

theorem place_add {cs : List Command} {d d' levels : Nat}
    (h : indents d' (cs.map Command.operation)
      = (indents d (cs.map Command.operation)).map (· + levels)) (o bytes : Nat) :
    place (o + bytes) d' cs = (place o d cs).map (Instruction.moved bytes levels) := by
  induction cs generalizing o d d' with
  | nil => rfl
  | cons c cs ih =>
      obtain ⟨first, rest⟩ := List.cons.inj h
      have here : c.indentAt d' = c.indentAt d + levels := first
      simp only [place, List.map_cons]
      rw [here, Nat.add_right_comm]
      exact congrArg (_ :: ·) (ih rest (o + c.size))

section
variable {bs : List Command} (h : Balanced (bs.map Command.operation)) (o d : Nat)
include h

theorem depth_of_balanced : depth d bs = d :=
  (depth_eq d bs).trans (h.depth_eq d)

/-- A balanced stretch is what it is at the start of a program, moved. -/
theorem place_of_balanced : place o d bs = (place 0 0 bs).map (Instruction.moved o d) := by
  have deeper := h.indents_add 0 d
  rw [Nat.zero_add] at deeper
  simpa using place_add deeper 0 o

/-- What is behind a balanced stretch is what it would be without it, some bytes later. -/
theorem place_balanced_append (cs : List Command) :
    place o d (bs ++ cs)
      = place o d bs ++ (place o d cs).map (Instruction.moved (bytes bs).length 0) := by
  have behind : place (o + (bytes bs).length) d cs
      = (place o d cs).map (Instruction.moved (bytes bs).length 0) := place_add (by simp) o _
  rw [place_append, depth_of_balanced h, behind]

end

theorem skip_of_bytes {cs : List Command} (h : ∀ c ∈ cs, c.IsEncodable) {p : Bytes}
    {d : Decoder} (going : d.ended = false) (left : d.rest = bytes cs ++ p) :
    ∃ d', d.skip cs.length = (cs.length, d') ∧ d'.position = d.position + (bytes cs).length ∧
      d'.depth = depth d.depth cs := by
  induction cs generalizing d with
  | nil => exact ⟨d, rfl, rfl, rfl⟩
  | cons c cs ih =>
      obtain ⟨hc, hcs⟩ := List.forall_mem_cons.mp h
      rw [bytes_cons, List.append_assoc] at left
      obtain ⟨d', skipped, position, depth⟩ := ih hcs (d := d.past c) rfl (Decoder.rest_past left)
      refine ⟨d', ?_, ?_, depth⟩
      · rw [List.length_cons, Decoder.skip, next_of_encode going hc left]
        simp only [skipped]
      · rw [position, bytes_cons, List.length_append, c.length_encode, ← Nat.add_assoc]
        rfl

end Stream

theorem exists_commands {p : Bytes} (complete : (decoding p).ending = .complete) :
    ∃ cs, (∀ c ∈ cs, Command.IsEncodable c) ∧ p = Stream.bytes cs := by
  obtain ⟨cs, r, h⟩ := Stream.exists_split p
  rw [h.decoding_eq] at complete
  obtain rfl := Stream.eq_nil_of_complete h.tail complete
  exact ⟨cs, h.encodable, h.eq.trans (List.append_nil _)⟩

theorem instructions_bytes {cs : List Command} (hcs : ∀ c ∈ cs, c.IsEncodable) :
    (decoding (Stream.bytes cs)).instructions = Stream.place 0 0 cs := by
  rw [(Stream.Split.of_encodable hcs).decoding_eq]

theorem instructions_bytes_append {cs qs : List Command} {q r : Bytes}
    (hcs : ∀ c ∈ cs, c.IsEncodable) (hq : Stream.Split q qs r) :
    (decoding (Stream.bytes cs ++ q)).instructions = Stream.place 0 0 (cs ++ qs) := by
  rw [(Stream.Split.prepend hcs hq).decoding_eq]

/-- **Well-formed blocks in any context.**  A balanced program `b` behind one that decodes
completely and leaves the depth `d` has the indents it has alone, and `d` more; the depth behind
it is `d` again, and what follows is what would follow without it, as many bytes later.  Within
it each closer stands where its opener stands, and what stands between two markers is deeper. -/
theorem block_in_context {p b : Bytes} {d : Nat} (complete : (decoding p).ending = .complete)
    (leaves : (Decoder.start p).last.depth = d) (whole : (decoding b).ending = .complete)
    (balanced : Balanced ((decoding b).instructions.map Instruction.operation)) (q : Bytes) :
    ∃ block behind left,
      block = (decoding b).instructions.map (Instruction.moved p.length d) ∧
      (decoding (p ++ q)).instructions = (decoding p).instructions ++ behind ∧
      (decoding (p ++ b ++ q)).instructions
        = (decoding p).instructions ++ block ++ behind.map (Instruction.moved b.length 0) ∧
      Decoder.skip ((decoding p).instructions.length + block.length) (Decoder.start (p ++ b ++ q))
        = ((decoding p).instructions.length + block.length, left) ∧
      left.position = p.length + b.length ∧ left.depth = d ∧ Nested block := by
  obtain ⟨cs, hcs, rfl⟩ := exists_commands complete
  obtain ⟨bs, hbs, rfl⟩ := exists_commands whole
  obtain ⟨qs, r, hq⟩ := Stream.exists_split q
  have both : ∀ c ∈ cs ++ bs, c.IsEncodable := List.forall_mem_append.mpr ⟨hcs, hbs⟩
  rw [(Stream.Split.of_encodable hcs).depth_last] at leaves
  rw [instructions_bytes hbs, Stream.map_operation_place] at balanced
  rw [instructions_bytes hcs, instructions_bytes hbs, instructions_bytes_append hcs hq,
    ← Stream.bytes_append, instructions_bytes_append both hq, Stream.place_append, leaves,
    Nat.zero_add]
  obtain ⟨left, skipped, position, depth⟩ :=
    Stream.skip_of_bytes (d := .start (Stream.bytes (cs ++ bs) ++ q)) both rfl rfl
  refine ⟨Stream.place (Stream.bytes cs).length d bs, Stream.place (Stream.bytes cs).length d qs,
    left, Stream.place_of_balanced balanced _ d, rfl, ?_, ?_, ?_, ?_, ?_⟩
  · rw [List.append_assoc, Stream.place_append, leaves, Nat.zero_add,
      Stream.place_balanced_append balanced, List.append_assoc]
  · simpa using skipped
  · simpa using position
  · calc left.depth
        = Stream.depth 0 (cs ++ bs) := depth
      _ = Stream.depth (Stream.depth 0 cs) bs := List.foldl_append
      _ = d := by rw [leaves, Stream.depth_of_balanced balanced]
  · refine (Stream.indented_place _ d bs).nested ?_
    rwa [Stream.map_operation_place]

/-- A function around both branches of a conditional, one of which pushes the opcode of the
last marker, behind a closer without a block and an opener. -/
theorem block_in_context_branches :
    (decoding [0x59, 0x58]).ending = .complete ∧ (Decoder.start [0x59, 0x58]).last.depth = 1 ∧
      (decoding [0x2c, 0x58, 0xb0, 0x59, 0x1b, 0x2b, 0x59, 0x2d]).ending = .complete ∧
      Balanced ((decoding [0x2c, 0x58, 0xb0, 0x59, 0x1b, 0x2b, 0x59, 0x2d]).instructions.map
        Instruction.operation) ∧
      ∀ q, ∃ behind,
        (decoding ([0x59, 0x58] ++ q)).instructions.map Instruction.indent = [0, 0] ++ behind ∧
        (decoding ([0x59, 0x58] ++ [0x2c, 0x58, 0xb0, 0x59, 0x1b, 0x2b, 0x59, 0x2d]
          ++ q)).instructions.map Instruction.indent
            = [0, 0] ++ [1, 2, 3, 2, 3, 2, 1] ++ behind := by
  have complete : (decoding [0x59, 0x58]).ending = .complete := by cbv
  have leaves : (Decoder.start [0x59, 0x58]).last.depth = 1 := by cbv
  have whole : (decoding [0x2c, 0x58, 0xb0, 0x59, 0x1b, 0x2b, 0x59, 0x2d]).ending = .complete := by
    cbv
  have operations : (decoding [0x2c, 0x58, 0xb0, 0x59, 0x1b, 0x2b, 0x59, 0x2d]).instructions.map
      Instruction.operation = [.FDEF, .IF, .PUSHB, .ELSE, .CALL, .EIF, .ENDF] := by cbv
  have balanced : Balanced [.FDEF, .IF, .PUSHB, .ELSE, .CALL, .EIF, .ENDF] := by
    have push : Balanced [.PUSHB] := .plain rfl rfl .nil
    have call : Balanced [.CALL] := .plain rfl rfl .nil
    exact .block .function (.alternative push call .nil) .nil
  rw [← operations] at balanced
  refine ⟨complete, leaves, whole, balanced, fun q => ?_⟩
  obtain ⟨block, behind, _, rfl, apart, together, _⟩ :=
    block_in_context complete leaves whole balanced q
  have before : (decoding [0x59, 0x58]).instructions.map Instruction.indent = [0, 0] := by cbv
  have deeper : ((decoding [0x2c, 0x58, 0xb0, 0x59, 0x1b, 0x2b, 0x59, 0x2d]).instructions.map
      (Instruction.moved 2 1)).map Instruction.indent = [1, 2, 3, 2, 3, 2, 1] := by cbv
  have kept : (behind.map (Instruction.moved 8 0)).map Instruction.indent
      = behind.map Instruction.indent := List.map_map
  refine ⟨behind.map Instruction.indent, ?_, ?_⟩
  · rw [apart, List.map_append, before]
  · rw [together, List.map_append, List.map_append, before]
    simp only [List.length_cons, List.length_nil]
    rw [deeper, kept]

end Hinting

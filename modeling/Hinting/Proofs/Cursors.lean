/-
# `Hinting.Proofs.Cursors` — a cursor is an index into its bytes

What a cursor does is settled by its byte string and by the index at which it stands:

    bytes       b₀  b₁  b₂  b₃
    index               ▲
    peek                b₂          stays
    readByte            b₂          one on
    readWord            b₂  b₃      two on
    seekBy d                        d on, or to the nearer end of the bytes

The rules (`Answers`) name no cursor.  They say what stands at an index, with which answer a
move is met, and to which index it leads; where fewer bytes are left than a read takes, the
answer is none and the index stays.

A cursor shows of its byte string the bytes that are left (`Cursor.rest`).  Each move is written
as an equation over these, and with that one move of a cursor is one rule
(`Within.answers_iff`) and any number of moves are as many rules (`Within.answersAll_iff`).
-/
import Mathlib
import Hinting.Proofs.Bounds

namespace Hinting

/-- The value of a word is that of its sixteen bits, the high byte in front. -/
theorem Word.ofBytes_eq_toInt (high low : UInt8) :
    ofBytes high low = (high.toBitVec ++ low.toBitVec).toInt := by
  have bound := low.toNat_lt
  have bits : (high.toBitVec ++ low.toBitVec).toNat = high.toNat * 256 + low.toNat := by
    rw [BitVec.toNat_append, UInt8.toNat_toBitVec, UInt8.toNat_toBitVec,
      ← Nat.shiftLeft_add_eq_or_of_lt bound, Nat.shiftLeft_eq]
  rw [BitVec.toInt_eq_toNat_cond, bits]
  simp only [ofBytes]
  split <;> split <;> omega

namespace Cursor

/-! ## Answers -/

inductive Answer where
  | byte (b : Option UInt8)
  | word (v : Option Int)
  | bytes (bs : Bytes)
  | nothing

def answer (c : Cursor) : Move → Answer
  | .peek => .byte c.peek?
  | .readByte => .byte c.readByte.1
  | .readWord => .word c.readWord.1
  | .take count => .bytes (Cursor.take count c).1
  | .seekBy _ | .rewind => .nothing

def answerAll (c : Cursor) : List Move → List Answer
  | [] => []
  | m :: ms => c.answer m :: (c.after m).answerAll ms

/-- `Answers bs k m a k'`: at the index `k` of the bytes `bs`, the answer to the move `m` is `a`,
and the move leads to the index `k'`. -/
inductive Answers (bs : Bytes) : Nat → Move → Answer → Nat → Prop
  | peek {k : Nat} : Answers bs k .peek (.byte (bs.drop k).head?) k
  | readByte {k : Nat} {b : UInt8} {rest : Bytes} :
      bs.drop k = b :: rest → Answers bs k .readByte (.byte (some b)) (k + 1)
  | noByte {k : Nat} : bs.drop k = [] → Answers bs k .readByte (.byte none) k
  | readWord {k : Nat} {high low : UInt8} {rest : Bytes} :
      bs.drop k = high :: low :: rest →
      Answers bs k .readWord (.word (some (high.toBitVec ++ low.toBitVec).toInt)) (k + 2)
  | noWord {k : Nat} : (bs.drop k).length < 2 → Answers bs k .readWord (.word none) k
  | take {k : Nat} (count : Nat) : Answers bs k (.take count) (.bytes ((bs.drop k).take count))
      (k + ((bs.drop k).take count).length)
  | seekBy {k k' : Nat} {distance : Int} :
      (k' : Int) = max 0 (min (k + distance) bs.length) →
      Answers bs k (.seekBy distance) .nothing k'
  | rewind {k : Nat} : Answers bs k .rewind .nothing 0

/-- `AnswersAll bs k ms as k'`: from the index `k` on, the moves `ms` are answered with `as`, one
by one, and lead to the index `k'`. -/
inductive AnswersAll (bs : Bytes) : Nat → List Move → List Answer → Nat → Prop
  | nil {k : Nat} : AnswersAll bs k [] [] k
  | cons {k k' k'' : Nat} {m : Move} {a : Answer} {ms : List Move} {as : List Answer} :
      Answers bs k m a k' → AnswersAll bs k' ms as k'' → AnswersAll bs k (m :: ms) (a :: as) k''

/-! ## Moves, by the bytes that are left -/

section
variable {c : Cursor}

theorem readByte_eq_some_iff {b : UInt8} :
    c.readByte.1 = some b ↔ ∃ rest, c.rest = b :: rest := by
  constructor
  · intro read
    cases left : c.rest with
    | nil => rw [readByte_of_nil left] at read; cases read
    | cons b' rest =>
        rw [readByte_of_cons left] at read
        exact ⟨rest, by rw [Option.some.inj read]⟩
  · rintro ⟨rest, left⟩
    rw [readByte_of_cons left]

theorem readByte_eq_none_iff : c.readByte.1 = none ↔ c.rest = [] := by
  cases left : c.rest with
  | nil => rw [readByte_of_nil left]; exact iff_of_true rfl rfl
  | cons b rest =>
      rw [readByte_of_cons left]
      exact iff_of_false (fun none => by cases none) (fun none => by cases none)

theorem readWord_eq_some_iff {v : Int} : c.readWord.1 = some v ↔
    ∃ high low rest, c.rest = high :: low :: rest ∧ v = Word.ofBytes high low := by
  constructor
  · intro read
    obtain few | ⟨high, low, rest, left⟩ := c.short_or_cons
    · rw [readWord_of_short few] at read
      cases read
    · rw [readWord_of_cons left] at read
      exact ⟨high, low, rest, left, (Option.some.inj read).symm⟩
  · rintro ⟨high, low, rest, left, rfl⟩
    rw [readWord_of_cons left]

theorem readWord_eq_none_iff : c.readWord.1 = none ↔ c.rest.length < 2 := by
  obtain few | ⟨high, low, rest, left⟩ := c.short_or_cons
  · rw [readWord_of_short few]
    exact iff_of_true rfl few
  · rw [readWord_of_cons left, left, List.length_cons, List.length_cons]
    exact iff_of_false (fun none => by cases none) (by omega)

theorem readWord_eq_some_iff_readByte {v : Int} : c.readWord.1 = some v ↔
    ∃ high low, c.readByte.1 = some high ∧ c.readByte.2.readByte.1 = some low ∧
      v = (high.toBitVec ++ low.toBitVec).toInt := by
  rw [readWord_eq_some_iff]
  constructor
  · rintro ⟨high, low, rest, left, rfl⟩
    refine ⟨high, low, ?_, ?_, Word.ofBytes_eq_toInt high low⟩
    · exact readByte_eq_some_iff.mpr ⟨_, left⟩
    · rw [readByte_of_cons left]
      exact readByte_eq_some_iff.mpr ⟨rest, rest_ahead_one left⟩
  · rintro ⟨high, low, first, second, rfl⟩
    obtain ⟨rest, left⟩ := readByte_eq_some_iff.mp first
    rw [readByte_of_cons left] at second
    obtain ⟨rest', later⟩ := readByte_eq_some_iff.mp second
    rw [rest_ahead_one left] at later
    exact ⟨high, low, rest', by rw [left, later], (Word.ofBytes_eq_toInt high low).symm⟩

theorem take_eq (count : Nat) : ∀ c : Cursor,
    Cursor.take count c = (c.rest.take count, c.ahead (c.rest.take count).length) := by
  induction count with
  | zero => intro c; rfl
  | succ count ih =>
      intro c
      rw [Cursor.take]
      cases left : c.rest with
      | nil =>
          rw [readByte_of_nil left]
          rfl
      | cons b rest =>
          have further : (c.ahead 1).ahead (rest.take count).length
              = c.ahead ((rest.take count).length + 1) := by
            simp only [ahead, Nat.add_assoc, Nat.add_comm 1]
          rw [readByte_of_cons left]
          simp only [ih, rest_ahead_one left, further, List.take_succ_cons, List.length_cons]

theorem take_one (c : Cursor) : Cursor.take 1 c = (c.readByte.1.toList, c.readByte.2) := by
  rw [Cursor.take]
  rcases c.readByte with ⟨_ | b, c'⟩ <;> rfl

theorem position_seekBy (c : Cursor) (distance : Int) :
    ((c.seekBy distance).position : Int) = max 0 (min (c.position + distance) c.size) := by
  show ((min (c.position + distance).toNat c.size : Nat) : Int) = _
  omega

theorem seekBy_ahead (inBounds : c.InBounds) (n : Nat) : (c.ahead n).seekBy (-n) = c := by
  have back : min (((c.position + n : Nat) : Int) + -n).toNat c.size = c.position := by
    rw [InBounds] at inBounds
    omega
  show Cursor.mk c.bytes (min (((c.position + n : Nat) : Int) + -n).toNat c.size) = c
  rw [back]

end

/-! ## A cursor and its index -/

section
variable {bs : Bytes} {c : Cursor} (h : c.Within bs)
include h

theorem Within.rest_eq : c.rest = bs.drop c.position := by rw [rest, h.bytes]

theorem Within.size_eq : c.size = bs.length := by rw [size, h.bytes]

/-- The answer of a cursor, and where it stands after it, follow a rule for its index. -/
theorem Within.answers (m : Move) : Answers bs c.position m (c.answer m) (c.after m).position := by
  cases m with
  | peek =>
      rw [answer, peek?_eq, h.rest_eq]
      exact .peek
  | readByte =>
      cases left : c.rest with
      | nil =>
          rw [answer, Cursor.after, readByte_of_nil left]
          exact .noByte (h.rest_eq ▸ left)
      | cons b rest =>
          rw [answer, Cursor.after, readByte_of_cons left]
          exact .readByte (h.rest_eq ▸ left)
  | readWord =>
      obtain few | ⟨high, low, rest, left⟩ := c.short_or_cons
      · rw [answer, Cursor.after, readWord_of_short few]
        exact .noWord (h.rest_eq ▸ few)
      · rw [answer, Cursor.after, readWord_of_cons left, Word.ofBytes_eq_toInt]
        exact .readWord (h.rest_eq ▸ left)
  | take count =>
      rw [answer, Cursor.after, take_eq, h.rest_eq]
      exact .take count
  | seekBy distance => exact .seekBy (h.size_eq ▸ position_seekBy c distance)
  | rewind => exact .rewind

end

theorem Answers.unique {bs : Bytes} {k k' k'' : Nat} {m : Move} {a a' : Answer}
    (h : Answers bs k m a k') (h' : Answers bs k m a' k'') : a = a' ∧ k' = k'' := by
  cases h with
  | peek => cases h'; exact ⟨rfl, rfl⟩
  | readByte left =>
      cases h' with
      | readByte left' =>
          obtain ⟨rfl, _⟩ := List.cons.inj (left.symm.trans left')
          exact ⟨rfl, rfl⟩
      | noByte none => cases left.symm.trans none
  | noByte none =>
      cases h' with
      | readByte left => cases left.symm.trans none
      | noByte => exact ⟨rfl, rfl⟩
  | readWord left =>
      cases h' with
      | readWord left' =>
          obtain ⟨rfl, rest⟩ := List.cons.inj (left.symm.trans left')
          obtain ⟨rfl, _⟩ := List.cons.inj rest
          exact ⟨rfl, rfl⟩
      | noWord few => rw [left, List.length_cons, List.length_cons] at few; omega
  | noWord few =>
      cases h' with
      | readWord left => rw [left, List.length_cons, List.length_cons] at few; omega
      | noWord => exact ⟨rfl, rfl⟩
  | take count => cases h'; exact ⟨rfl, rfl⟩
  | seekBy place =>
      cases h' with
      | seekBy place' => exact ⟨rfl, Int.ofNat_inj.mp (place.trans place'.symm)⟩
  | rewind => cases h'; exact ⟨rfl, rfl⟩

theorem Within.answers_iff {bs : Bytes} {c : Cursor} (h : c.Within bs) {m : Move} {a : Answer}
    {k : Nat} : Answers bs c.position m a k ↔ a = c.answer m ∧ k = (c.after m).position := by
  constructor
  · exact fun answers => answers.unique (h.answers m)
  · rintro ⟨rfl, rfl⟩
    exact h.answers m

theorem Within.answersAll_iff {bs : Bytes} {k : Nat} : ∀ {ms : List Move} {as : List Answer}
    {c : Cursor}, c.Within bs →
      (AnswersAll bs c.position ms as k ↔ as = c.answerAll ms ∧ k = (c.afterAll ms).position) := by
  intro ms
  induction ms with
  | nil =>
      intro as c _
      constructor
      · intro answers
        cases answers
        exact ⟨rfl, rfl⟩
      · rintro ⟨rfl, rfl⟩
        exact .nil
  | cons m ms ih =>
      intro as c h
      constructor
      · intro answers
        cases answers with
        | cons first later =>
            obtain ⟨rfl, rfl⟩ := h.answers_iff.mp first
            obtain ⟨rfl, rfl⟩ := (ih (h.after m)).mp later
            exact ⟨rfl, rfl⟩
      · rintro ⟨rfl, rfl⟩
        exact .cons (h.answers m) ((ih (h.after m)).mpr ⟨rfl, rfl⟩)

/-! ## What a client can rely on -/

/-- What a client can rely on at a cursor in the bytes `bs`. -/
structure Reliable (bs : Bytes) (c : Cursor) : Prop where
  bytes : c.bytes = bs
  inBounds : c.position ≤ bs.length
  whole : c.remaining + c.position = bs.length
  /-- A read gives nothing exactly where it takes more bytes than are left. -/
  byte_none : c.readByte.1 = none ↔ c.remaining < 1
  word_none : c.readWord.1 = none ↔ c.remaining < 2
  /-- A read that gives nothing leaves the cursor as it is. -/
  byte_stays : c.readByte.1 = none → c.readByte.2 = c
  word_stays : c.readWord.1 = none → c.readWord.2 = c
  /-- Bytes are taken by reading them. -/
  take_one : Cursor.take 1 c = (c.readByte.1.toList, c.readByte.2)
  /-- A word is made of the two bytes that two reads would give. -/
  word_iff : ∀ v, c.readWord.1 = some v ↔ ∃ high low, c.readByte.1 = some high ∧
    c.readByte.2.readByte.1 = some low ∧ v = (high.toBitVec ++ low.toBitVec).toInt
  /-- It leads as far as the two reads would. -/
  word_after : ∀ v, c.readWord.1 = some v → c.readWord.2 = c.readByte.2.readByte.2
  /-- A read is undone by seeking back as many bytes as it took. -/
  byte_back : ∀ b, c.readByte.1 = some b → c.readByte.2.seekBy (-1) = c
  word_back : ∀ v, c.readWord.1 = some v → c.readWord.2.seekBy (-2) = c
  /-- A byte that is left over is still there after a word has not been read. -/
  left_over : c.remaining = 1 → c.readWord.1 = none ∧ ∃ b, c.readWord.2.readByte.1 = some b

theorem Within.reliable {bs : Bytes} {c : Cursor} (h : c.Within bs) : Reliable bs c where
  bytes := h.bytes
  inBounds := h.size_eq ▸ h.inBounds
  whole := by rw [Nat.add_comm, position_add_remaining h.inBounds, h.size_eq]
  byte_none := by rw [readByte_eq_none_iff, ← length_rest, Nat.lt_one_iff, List.length_eq_zero_iff]
  word_none := by rw [readWord_eq_none_iff, length_rest]
  byte_stays none := by rw [readByte_of_nil (readByte_eq_none_iff.mp none)]
  word_stays none := by rw [readWord_of_short (readWord_eq_none_iff.mp none)]
  take_one := take_one c
  word_iff _ := readWord_eq_some_iff_readByte
  word_after v read := by
    obtain ⟨high, low, rest, left, _⟩ := readWord_eq_some_iff.mp read
    rw [readWord_of_cons left, readByte_of_cons left, readByte_of_cons (rest_ahead_one left)]
    rfl
  byte_back b read := by
    obtain ⟨rest, left⟩ := readByte_eq_some_iff.mp read
    rw [readByte_of_cons left]
    exact seekBy_ahead h.inBounds 1
  word_back v read := by
    obtain ⟨high, low, rest, left, _⟩ := readWord_eq_some_iff.mp read
    rw [readWord_of_cons left]
    exact seekBy_ahead h.inBounds 2
  left_over one := by
    have few : c.rest.length < 2 := by rw [length_rest, one]; exact Nat.one_lt_two
    obtain ⟨b, single⟩ := List.length_eq_one_iff.mp ((length_rest c).trans one)
    rw [readWord_of_short few]
    exact ⟨rfl, b, readByte_eq_some_iff.mpr ⟨[], single⟩⟩

/-- **A cursor is an index into its bytes.**  Whatever moves a client makes, the answers and the
place where the cursor stands are those that the rules give for the index, and no others; and
at that place the client can rely on every read and on its being taken back. -/
theorem cursor_is_index (bs : Bytes) (ms : List Move) :
    (∀ as k, AnswersAll bs 0 ms as k ↔
      as = (start bs).answerAll ms ∧ k = ((start bs).afterAll ms).position) ∧
    Reliable bs ((start bs).afterAll ms) := by
  refine ⟨fun as k => ?_, (within_start bs).afterAll.reliable⟩
  exact (within_start bs).answersAll_iff

end Cursor

end Hinting

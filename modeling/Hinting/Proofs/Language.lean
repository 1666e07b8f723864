/-
# `Hinting.Proofs.Language` — the source texts that are programs

The language of source texts is laid down here by its grammar, with neither the assembler
nor its readers in it:

    text     the lines that are not all white space divide, in order, into items
    plain    a header line with the name of an operation that is no push, and between its
             brackets and blanks as many binary digits as the operation has argument bits
    push     a header line with the name of a push, whatever stands between its brackets,
             and after it nothing or one values line, with as many values as the push takes
             and each of them an operand

An item is a command (`Item`), and the bytes of a command are laid down by the format of
instructions (`Encoding`).  The assembler takes exactly these texts, each of them divides in
one way only, and its program is the bytes of its items (`assemble_accepts_language`).

Three steps lead there.  An item by the grammar is an item by the readers (`item_iff`).
Only the first line of an item is a header line, so that an item starts wherever one stands
(`Divides.eq_splitBy`).  And a command has one encoding (`encoding_iff`).
-/
import Mathlib
import Hinting.Proofs.Format
import Hinting.Proofs.Rendering
import Hinting.Proofs.ValuesLine

namespace Hinting

def PushWidth.least : PushWidth → Int
  | .byte => 0
  | .word => -32768

def PushWidth.greatest : PushWidth → Int
  | .byte => 255
  | .word => 32767

namespace Language

open Text

/-! ## The language -/

/-- `Follows ls vs`: after the header line of a push stand the lines `ls`, with the
values `vs`. -/
inductive Follows : List Text → List Int → Prop
  | nothing : Follows [] []
  | values {line : Text} {vs : List Int} : Values.Spells vs line → Follows [line] vs

/-- `Item ls c`: the lines `ls` are an item, the command `c`. -/
inductive Item : List Text → Command → Prop
  | plain {line before digits after : Text} {op : Operation} :
      op.isPush = false → Header.Spells ⟨op.mnemonic, before ++ digits ++ after⟩ line →
      AllBlank before → AllBlank after →
      digits.length = op.argBits → (∀ c ∈ digits, c = '0' ∨ c = '1') →
      Item [line] (.plain op (Nat.ofDigitChars 2 digits 0))
  | inline {line inside : Text} {w : PushWidth} {follow : List Text} {vs : List Int} :
      Header.Spells ⟨w.inlinePush.mnemonic, inside⟩ line → Follows follow vs →
      1 ≤ vs.length → vs.length ≤ 8 → (∀ v ∈ vs, w.least ≤ v ∧ v ≤ w.greatest) →
      Item (line :: follow) (.push w.inlinePush vs)
  | counted {line inside : Text} {w : PushWidth} {follow : List Text} {vs : List Int} :
      Header.Spells ⟨w.countedPush.mnemonic, inside⟩ line → Follows follow vs →
      vs.length ≤ 255 → (∀ v ∈ vs, w.least ≤ v ∧ v ≤ w.greatest) →
      Item (line :: follow) (.push w.countedPush vs)

/-- `Divides ls gs`: the lines `ls` are the items `gs`, one after the other. -/
structure Divides (ls : List Text) (gs : List (List Text)) : Prop where
  eq : gs.flatten = ls
  items : ∀ g ∈ gs, ∃ c, Item g c

/-- `Encoding c e`: the bytes `e` are the command `c`.  The argument bits are added to the code of
the operation, and the operands of a push are read as its values. -/
inductive Encoding : Command → Bytes → Prop
  | plain {op : Operation} {value : Nat} {b : UInt8} :
      b.toNat = op.code + value → Encoding (.plain op value) [b]
  | push {op : Operation} {w : PushWidth} {operands e : Bytes} {vs : List Int} :
      op.pushWidth? = some w → Format.Encodes op operands e → w.values operands = vs →
      Encoding (.push op vs) e

/-- `Encoded g e`: the bytes `e` are the item `g`. -/
def Encoded (g : List Text) (e : Bytes) : Prop := ∃ c, Item g c ∧ Encoding c e

end Language

/-! ## Operands -/

namespace PushWidth

theorem holds_iff {w : PushWidth} {v : Int} :
    w.holds v = true ↔ w.least ≤ v ∧ v ≤ w.greatest := by
  cases w <;> simp [holds, least, greatest]

theorem admitsCount_inlinePush {w : PushWidth} {count : Nat} :
    w.inlinePush.admitsCount count = true ↔ 1 ≤ count ∧ count ≤ 8 := by
  simp [Operation.admitsCount]

theorem admitsCount_countedPush {w : PushWidth} {count : Nat} :
    w.countedPush.admitsCount count = true ↔ count ≤ 255 := by
  simp [Operation.admitsCount]

theorem values_encodeMany {w : PushWidth} {vs : List Int} (h : ∀ v ∈ vs, w.holds v = true) :
    w.values (w.encodeMany vs) = vs := by
  have read := readMany?_append (length_encodeMany w vs) []
  rw [readMany?_encodeMany_append h] at read
  obtain ⟨same, _⟩ := Prod.mk.inj (Option.some.inj read)
  exact same.symm

end PushWidth

/-! ## What stands in brackets -/

namespace Text

theorem trim_append {before t after : Text} (hb : AllBlank before) (ha : AllBlank after) :
    trim (before ++ t ++ after) = trim t := by
  have white : ∀ {a : Text}, AllBlank a → ∀ c ∈ a, isWhite c = true :=
    fun blank c hc => isWhite_of_isBlank (blank c hc)
  have back : ∀ c ∈ after.reverse, isWhite c = true :=
    fun c hc => white ha c (List.mem_reverse.mp hc)
  rw [trim, List.append_assoc, List.dropWhile_append_of_pos (white hb), List.dropWhile_append]
  split
  · rename_i nothing
    have none : after.dropWhile isWhite = [] := List.dropWhile_eq_nil_iff.mpr (white ha)
    rw [none, trim, List.isEmpty_iff.mp nothing]
  · rw [trim, trimEnd, List.reverse_append, List.dropWhile_append_of_pos back]
    rfl

theorem exists_eq_trim (t : Text) : ∃ before after, (∀ c ∈ before, isWhite c = true) ∧
    (∀ c ∈ after, isWhite c = true) ∧ t = before ++ trim t ++ after := by
  have front := List.takeWhile_append_dropWhile (p := isWhite) (l := t)
  have back := List.takeWhile_append_dropWhile (p := isWhite) (l := (t.dropWhile isWhite).reverse)
  have split := congrArg List.reverse back
  rw [List.reverse_append, List.reverse_reverse] at split
  refine ⟨t.takeWhile isWhite, ((t.dropWhile isWhite).reverse.takeWhile isWhite).reverse,
    List.all_eq_true.mp List.all_takeWhile, ?_, ?_⟩
  · intro c hc
    exact List.all_eq_true.mp List.all_takeWhile c (List.mem_reverse.mp hc)
  · rw [List.append_assoc]
    exact front.symm.trans (congrArg _ split.symm)

end Text

theorem Header.isBlank_of_isInside {c : Char} (inside : isInside c = true)
    (white : Text.isWhite c = true) : Text.isBlank c = true := by
  simp only [isInside, Bool.or_eq_true, beq_iff_eq] at inside
  rcases inside with (rfl | rfl) | rfl
  · exact absurd white (by decide)
  · exact absurd white (by decide)
  · rfl

namespace Numeral

theorem isWhite_of_binary {c : Char} (h : c = '0' ∨ c = '1') : Text.isWhite c = false := by
  rcases h with rfl | rfl <;> decide

theorem all_isBinaryDigit_iff {digits : Text} :
    digits.all isBinaryDigit = true ↔ ∀ c ∈ digits, c = '0' ∨ c = '1' := by
  simp [isBinaryDigit]

end Numeral

/-! ## The items that the readers find -/

/-- Lines are one command at most: the one that the assembler makes of them. -/
theorem Item.unique {g : List Text} {c c' : Command} (h : Item g c)
    (h' : Item g c') : c = c' := by
  have made : ∀ {c : Command}, Item g c →
      commands (g.map (SourceLine.mk 0)) = .ok [c] := by
    intro c item
    have items := Items.cons item .nil
    have texts : (g.map (SourceLine.mk 0)).map SourceLine.text = g := by
      rw [List.map_map]
      exact List.map_id g
    rw [List.append_nil, ← texts] at items
    exact commands_eq_ok_iff.mpr items
  exact (List.cons.inj (Except.ok.inj ((made h).symm.trans (made h')))).1

theorem items_iff {ls : List Text} {cs : List Command} :
    Items ls cs ↔ ∃ gs : List (List Text), gs.flatten = ls ∧ List.Forall₂ Item gs cs := by
  constructor
  · intro h
    induction h with
    | nil => exact ⟨[], rfl, .nil⟩
    | @cons g ls c cs item _ ih =>
        obtain ⟨gs, rfl, items⟩ := ih
        exact ⟨g :: gs, rfl, .cons item items⟩
  · rintro ⟨gs, rfl, items⟩
    induction items with
    | nil => exact .nil
    | cons item _ ih => exact .cons item ih

namespace Language

open Text

/-! ## Items -/

theorem follows_iff {ls : List Text} {vs : List Int} : Follows ls vs ↔ Hinting.Follows ls vs := by
  constructor
  · rintro (_ | spelled)
    · exact .nothing
    · exact .values (Values.ofLine?_eq_some_iff.mpr spelled)
  · rintro (_ | read)
    · exact .nothing
    · exact .values (Values.ofLine?_eq_some_iff.mp read)

/-- The items of the grammar are the items that the readers find. -/
theorem item_iff {ls : List Text} {c : Command} : Item ls c ↔ Hinting.Item ls c := by
  constructor
  · intro h
    cases h with
    | @plain line before digits after op notPush spelled hb ha width binary =>
        have solid : ∀ c ∈ digits, isWhite c = false :=
          fun c hc => Numeral.isWhite_of_binary (binary c hc)
        have trimmed : trim (before ++ digits ++ after) = digits := by
          rw [trim_append hb ha, trim_eq_self solid]
        refine .plain (Header.ofLine?_eq_some_iff.mpr spelled)
          (Option.not_isSome_iff_eq_none.mp (Bool.eq_false_iff.mp notPush)) ?_ ?_
        · rw [trimmed]
          exact width
        · rw [trimmed]
          exact Numeral.binary?_eq_some_iff.mpr ⟨Numeral.all_isBinaryDigit_iff.mpr binary, rfl⟩
    | inline spelled follows one eight held =>
        exact .push (Header.ofLine?_eq_some_iff.mpr spelled) (PushWidth.pushWidth?_inlinePush _)
          (follows_iff.mp follows) (PushWidth.admitsCount_inlinePush.mpr ⟨one, eight⟩)
          fun v hv => PushWidth.holds_iff.mpr (held v hv)
    | counted spelled follows count held =>
        exact .push (Header.ofLine?_eq_some_iff.mpr spelled) (PushWidth.pushWidth?_countedPush _)
          (follows_iff.mp follows) (PushWidth.admitsCount_countedPush.mpr count)
          fun v hv => PushWidth.holds_iff.mpr (held v hv)
  · intro h
    cases h with
    | @plain line inside op value read kind width digits =>
        have spelled := Header.ofLine?_eq_some_iff.mp read
        obtain ⟨all, rfl⟩ := Numeral.binary?_eq_some_iff.mp digits
        obtain ⟨before, after, hb, ha, eq⟩ := exists_eq_trim inside
        have blank : ∀ c, c ∈ before ∨ c ∈ after → isWhite c = true → isBlank c = true := by
          intro c hc
          refine Header.isBlank_of_isInside (spelled.inside c ?_)
          change c ∈ inside
          rw [eq]
          rcases hc with hc | hc <;> simp [hc]
        rw [eq] at spelled
        exact .plain (Operation.isPush_eq_false kind) spelled
          (fun c hc => blank c (.inl hc) (hb c hc)) (fun c hc => blank c (.inr hc) (ha c hc))
          width (Numeral.all_isBinaryDigit_iff.mp all)
    | @push line inside op w follow vs read kind follows admitted held =>
        have spelled := Header.ofLine?_eq_some_iff.mp read
        have push := PushWidth.eq_push_of_pushWidth? kind
        have range : ∀ v ∈ vs, w.least ≤ v ∧ v ≤ w.greatest :=
          fun v hv => PushWidth.holds_iff.mp (held v hv)
        split at push
        · subst push
          obtain ⟨one, eight⟩ := PushWidth.admitsCount_inlinePush.mp admitted
          exact .inline spelled (follows_iff.mpr follows) one eight range
        · subst push
          have count := PushWidth.admitsCount_countedPush.mp admitted
          exact .counted spelled (follows_iff.mpr follows) count range

/-! ## Divisions -/

theorem divides_iff {ls : List Text} {gs : List (List Text)} :
    Divides ls gs ↔ gs.flatten = ls ∧ ∃ cs, List.Forall₂ Hinting.Item gs cs := by
  constructor
  · rintro ⟨rfl, items⟩
    refine ⟨rfl, ?_⟩
    induction gs with
    | nil => exact ⟨[], .nil⟩
    | cons g gs ih =>
        obtain ⟨⟨c, item⟩, others⟩ := List.forall_mem_cons.mp items
        obtain ⟨cs, rest⟩ := ih others
        exact ⟨c :: cs, .cons (item_iff.mp item) rest⟩
  · rintro ⟨rfl, cs, items⟩
    refine ⟨rfl, ?_⟩
    induction items with
    | nil => intro g hg; cases hg
    | cons item _ ih => exact List.forall_mem_cons.mpr ⟨⟨_, item_iff.mpr item⟩, ih⟩

/-- Whether a line does not start an item. -/
def continues (line : Text) : Bool := (Header.ofLine? line).isNone

/-- Of the lines of an item, the first one alone is a header line. -/
theorem isChain_of_item {g : List Text} {c : Command} (h : Hinting.Item g c) :
    g.IsChain fun _ next => continues next = true := by
  cases h with
  | plain => exact .singleton _
  | push _ _ follows =>
      cases follows with
      | nothing => exact .singleton _
      | values read =>
          refine List.isChain_pair.mpr ?_
          rw [continues, Values.header_eq_none_of_ofLine? read]
          rfl

theorem Divides.eq_splitBy {ls : List Text} {gs : List (List Text)} (h : Divides ls gs) :
    gs = ls.splitBy fun _ next => continues next := by
  have starts : ∀ g ∈ gs, ∃ line rest, g = line :: rest ∧ continues line = false := by
    intro g hg
    obtain ⟨c, item⟩ := h.items g hg
    obtain ⟨line, rest, header, rfl, read⟩ := (item_iff.mp item).eq_cons
    exact ⟨line, rest, rfl, by rw [continues, read]; rfl⟩
  have filled : [] ∉ gs := by
    intro hg
    obtain ⟨_, _, none, _⟩ := starts [] hg
    cases none
  have chains : ∀ g ∈ gs, g.IsChain fun _ next => continues next = true := by
    intro g hg
    obtain ⟨c, item⟩ := h.items g hg
    exact isChain_of_item (item_iff.mp item)
  have apart : gs.Pairwise fun g g' =>
      ∃ (_ : g ≠ []) (hg' : g' ≠ []), continues (g'.head hg') = false := by
    refine List.pairwise_of_forall_mem_list fun g hg g' hg' => ?_
    obtain ⟨line, rest, rfl, _⟩ := starts g hg
    obtain ⟨line', rest', rfl, start⟩ := starts g' hg'
    exact ⟨List.cons_ne_nil _ _, List.cons_ne_nil _ _, start⟩
  rw [← h.eq]
  exact (List.splitBy_flatten filled chains apart.isChain).symm

/-! ## Encodings -/

theorem eq_encode_of_encodes {op : Operation} {w : PushWidth} {operands e : Bytes}
    (kind : op.pushWidth? = some w) (h : Format.Encodes op operands e) :
    e = (Command.push op (w.values operands)).encode := by
  obtain ⟨c, fetched, rfl, arguments⟩ := h.fetch_append []
  obtain ⟨eq, encodable⟩ := Command.eq_encode_append_of_fetch fetched
  rw [kind] at arguments
  cases c with
  | plain op value => cases encodable.1.symm.trans kind
  | push op vs =>
      obtain rfl : vs = w.values operands := arguments
      exact List.append_cancel_right eq

theorem encoding_iff {c : Command} (h : c.IsEncodable) {e : Bytes} :
    Encoding c e ↔ e = c.encode := by
  constructor
  · intro encoding
    cases encoding with
    | @plain op value b opcode =>
        have same : b = op.opcode value :=
          UInt8.toNat_inj.mp (opcode.trans (Operation.toNat_opcode h.2).symm)
        rw [same]
        rfl
    | push kind encodes values => exact values ▸ eq_encode_of_encodes kind encodes
  · rintro rfl
    cases c with
    | plain op value => exact .plain (Operation.toNat_opcode h.2)
    | push op vs =>
        have encodes := Format.encodes_command h
        obtain ⟨w, kind, _, held⟩ := h
        refine .push kind encodes ?_
        rw [Command.operandBytes, kind]
        exact PushWidth.values_encodeMany held

/-! ## The assembler -/

theorem forall₂_encoded_iff {gs : List (List Text)} {cs : List Command}
    (items : List.Forall₂ Hinting.Item gs cs) {es : List Bytes} :
    List.Forall₂ Encoded gs es ↔ es = cs.map Command.encode := by
  induction items generalizing es with
  | nil => simp
  | @cons g c gs cs item items ih =>
      have encoded : ∀ e, Encoded g e ↔ e = c.encode := by
        intro e
        constructor
        · rintro ⟨c', item', encoding⟩
          obtain rfl := item.unique (item_iff.mp item')
          exact (encoding_iff item.encodable).mp encoding
        · rintro rfl
          exact ⟨c, item_iff.mpr item, (encoding_iff item.encodable).mpr rfl⟩
      rw [List.forall₂_cons_left_iff, List.map_cons]
      simp [encoded, ih]

/-- **The assembler takes exactly the texts of its language.**  A text is a program if the lines
of it that are not all white space divide into items.  They do so in one way only, each item
has one encoding, and the program is these encodings in order. -/
theorem assemble_accepts_language (t : Text) :
    ((∃ q, assemble t = .ok q) ↔ ∃ gs, Divides (sourceTexts t) gs) ∧
    ∀ gs, Divides (sourceTexts t) gs →
      (∀ gs', Divides (sourceTexts t) gs' → gs' = gs) ∧
      ∃ es, List.Forall₂ Encoded gs es ∧ (∀ es', List.Forall₂ Encoded gs es' → es' = es) ∧
        assemble t = .ok es.flatten := by
  constructor
  · constructor
    · rintro ⟨q, assembled⟩
      obtain ⟨cs, items, _⟩ := assemble_eq_ok_iff.mp assembled
      obtain ⟨gs, eq, each⟩ := items_iff.mp items
      exact ⟨gs, divides_iff.mpr ⟨eq, cs, each⟩⟩
    · rintro ⟨gs, division⟩
      obtain ⟨eq, cs, each⟩ := divides_iff.mp division
      exact ⟨_, assemble_eq_ok_iff.mpr ⟨cs, items_iff.mpr ⟨gs, eq, each⟩, rfl⟩⟩
  · intro gs division
    obtain ⟨eq, cs, each⟩ := divides_iff.mp division
    refine ⟨fun gs' other => other.eq_splitBy.trans division.eq_splitBy.symm,
      cs.map Command.encode, (forall₂_encoded_iff each).mpr rfl,
      fun es' => (forall₂_encoded_iff each).mp, ?_⟩
    rw [Stream.flatten_map_encode]
    exact assemble_eq_ok_iff.mpr ⟨cs, items_iff.mpr ⟨gs, eq, each⟩, rfl⟩

/-- A push with its values behind an empty line, and a move with its bits between blanks; the
same move with a blank among its bits. -/
theorem accepts_language_move :
    (∃ gs es, Divides (sourceTexts "PUSHB[1]\n\n 1 -0\nMDRP[ 00110 ]/* */".toList) gs ∧
      List.Forall₂ Encoded gs es ∧ es.flatten = [0xb1, 0x01, 0x00, 0xc6]) ∧
    ¬ ∃ gs, Divides (sourceTexts "PUSHB[1]\n\n 1 -0\nMDRP[ 001 10]/* */".toList) gs := by
  have taken : assemble "PUSHB[1]\n\n 1 -0\nMDRP[ 00110 ]/* */".toList
      = .ok [0xb1, 0x01, 0x00, 0xc6] := by cbv
  have refused : assemble "PUSHB[1]\n\n 1 -0\nMDRP[ 001 10]/* */".toList
      = .error ⟨4, .bitCount .MDRP "001 10".toList⟩ := by cbv
  constructor
  · obtain ⟨gs, division⟩ := (assemble_accepts_language _).1.mp ⟨_, taken⟩
    obtain ⟨_, es, encoded, _, assembled⟩ := (assemble_accepts_language _).2 gs division
    exact ⟨gs, es, division, encoded, Except.ok.inj (assembled.symm.trans taken)⟩
  · intro division
    obtain ⟨q, assembled⟩ := (assemble_accepts_language _).1.mpr division
    cases refused.symm.trans assembled

end Language

end Hinting

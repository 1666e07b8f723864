/-
# `Hinting.Proofs.Items` — the items of a source text

What a source text must look like to be a program is laid down here as a division of
its lines into **items**, one for each command (`Items`):

    plain     header line of an operation that is no push
    push      header line of a push, and a values line or nothing after it

The assembler walks through the lines with one line of lookahead; a division has no
order of reading in it.  They agree (`commands_eq_ok_iff`) because no line is both a
header line and a values line: a push can only take a line that no item starts with,
and a push that takes none is followed by a header line.

The commands of items fit the format (`Items.encodable`).  Other lines that are read alike
divide alike (`Items.readsAs`), so that blanks at the ends of the lines change nothing
(`Items.padded`).
-/
import Hinting.Proofs.Stream
import Hinting.Proofs.ValuesLine

namespace Hinting

/-! ## The division of a source text -/

/-- `Follows ls vs`: the lines `ls` after the header line of a push give it the values `vs`. -/
inductive Follows : List Text → List Int → Prop
  | nothing : Follows [] []
  | values {line : Text} {vs : List Int} : Values.ofLine? line = some vs → Follows [line] vs

/-- `Item ls c`: the lines `ls` are the command `c`. -/
inductive Item : List Text → Command → Prop
  | plain {line inside : Text} {op : Operation} {value : Nat} :
      Header.ofLine? line = some ⟨op.mnemonic, inside⟩ → op.pushWidth? = none →
      (Text.trim inside).length = op.argBits →
      Numeral.binary? (Text.trim inside) = some value → Item [line] (.plain op value)
  | push {line inside : Text} {op : Operation} {w : PushWidth} {follow : List Text}
      {vs : List Int} :
      Header.ofLine? line = some ⟨op.mnemonic, inside⟩ → op.pushWidth? = some w →
      Follows follow vs → op.admitsCount vs.length = true →
      (∀ v ∈ vs, w.holds v = true) → Item (line :: follow) (.push op vs)

/-- `Items ls cs`: the lines `ls` divide into items that are the commands `cs`, in order. -/
inductive Items : List Text → List Command → Prop
  | nil : Items [] []
  | cons {ls ls' : List Text} {c : Command} {cs : List Command} :
      Item ls c → Items ls' cs → Items (ls ++ ls') (c :: cs)

theorem Item.eq_cons {ls : List Text} {c : Command} (h : Item ls c) :
    ∃ line rest header, ls = line :: rest ∧ Header.ofLine? line = some header := by
  cases h with
  | plain header => exact ⟨_, [], _, rfl, header⟩
  | push header => exact ⟨_, _, _, rfl, header⟩

theorem Item.encodable {ls : List Text} {c : Command} (h : Item ls c) : c.IsEncodable := by
  cases h with
  | plain _ plain width value => exact ⟨plain, width ▸ (Numeral.binary_of_binary? value).1⟩
  | push _ isPush _ admitted held => exact ⟨_, isPush, admitted, held⟩

theorem Items.encodable {ls : List Text} {cs : List Command} (h : Items ls cs) :
    ∀ c ∈ cs, c.IsEncodable := by
  induction h with
  | nil => intro c hc; cases hc
  | cons item _ ih => exact List.forall_mem_cons.mpr ⟨item.encodable, ih⟩

theorem Items.ofLine?_head {line : Text} {rest : List Text} {cs : List Command}
    (h : Items (line :: rest) cs) : Values.ofLine? line = none := by
  generalize eq : line :: rest = ls at h
  cases h with
  | nil => cases eq
  | cons item _ =>
      obtain ⟨line', _, header, rfl, read⟩ := item.eq_cons
      obtain ⟨rfl, _⟩ := List.cons.inj eq
      exact Values.ofLine?_eq_none_of_spells (Header.ofLine?_eq_some_iff.mp read)

/-! ## Lines in place of others -/

/-- What the first line is read as, the second is read as too. -/
structure Text.ReadsAs (l l' : Text) : Prop where
  header : ∀ header, Header.ofLine? l = some header → Header.ofLine? l' = some header
  values : ∀ vs, Values.ofLine? l = some vs → Values.ofLine? l' = some vs

theorem Text.readsAs_refl (l : Text) : ReadsAs l l := ⟨fun _ read => read, fun _ read => read⟩

theorem Text.Padded.readsAs {l l' : Text} (h : Padded l l') : ReadsAs l l' :=
  ⟨fun _ read => Header.ofLine?_padded read h, fun _ => (Values.ofLine?_padded h).trans⟩

theorem Follows.readsAs {ls ls' : List Text} {vs : List Int} (h : Follows ls vs)
    (hr : List.Forall₂ Text.ReadsAs ls ls') : Follows ls' vs := by
  cases h with
  | nothing => cases hr; exact .nothing
  | values read =>
      obtain ⟨line', rest, same, none, rfl⟩ := List.forall₂_cons_left_iff.mp hr
      cases none
      exact .values (same.values _ read)

theorem Item.readsAs {ls ls' : List Text} {c : Command} (h : Item ls c)
    (hr : List.Forall₂ Text.ReadsAs ls ls') : Item ls' c := by
  cases h with
  | plain header plain width value =>
      obtain ⟨line', rest, same, none, rfl⟩ := List.forall₂_cons_left_iff.mp hr
      cases none
      exact .plain (same.header _ header) plain width value
  | push header isPush follows admitted held =>
      obtain ⟨line', rest, same, rest', rfl⟩ := List.forall₂_cons_left_iff.mp hr
      exact .push (same.header _ header) isPush (follows.readsAs rest') admitted held

/-- Lines that are read alike divide alike. -/
theorem Items.readsAs {ls : List Text} {cs : List Command} (h : Items ls cs) :
    ∀ {ls' : List Text}, List.Forall₂ Text.ReadsAs ls ls' → Items ls' cs := by
  induction h with
  | nil => intro ls' hr; cases hr; exact .nil
  | @cons ls rest c cs item _ ih =>
      intro ls' hr
      have front := List.forall₂_take ls.length hr
      have back := List.forall₂_drop ls.length hr
      rw [List.take_left] at front
      rw [List.drop_left] at back
      rw [← List.take_append_drop ls.length ls']
      exact .cons (item.readsAs front) (ih back)

theorem Items.padded {ls ls' : List Text} {cs : List Command} (h : Items ls cs)
    (hp : List.Forall₂ Text.Padded ls ls') : Items ls' cs :=
  h.readsAs (hp.imp fun _ _ => Text.Padded.readsAs)

/-! ## The assembler -/

theorem Operation.ofMnemonic?_eq_some_iff {name : Text} {op : Operation} :
    ofMnemonic? name = some op ↔ name = op.mnemonic := by
  constructor
  · intro h
    rw [ofMnemonic?] at h
    have found := List.find?_some h
    exact (beq_iff_eq.mp found).symm
  · rintro rfl
    exact ofMnemonic?_mnemonic op

namespace SourceLine

theorem header_eq_ok_iff {line : SourceLine} {op : Operation} {inside : Text} :
    line.header = .ok (op, inside) ↔ Header.ofLine? line.text = some ⟨op.mnemonic, inside⟩ := by
  rw [header]
  cases read : Header.ofLine? line.text with
  | none => constructor <;> intro h <;> cases h
  | some found =>
      obtain ⟨name, inside'⟩ := found
      dsimp only
      cases known : Operation.ofMnemonic? name with
      | none =>
          constructor
          · intro h
            cases h
          · intro h
            obtain ⟨rfl, _⟩ := Header.mk.inj (Option.some.inj h)
            rw [Operation.ofMnemonic?_mnemonic] at known
            cases known
      | some op' =>
          obtain rfl := Operation.ofMnemonic?_eq_some_iff.mp known
          constructor
          · intro h
            obtain ⟨rfl, rfl⟩ := Prod.mk.inj (Except.ok.inj h)
            rfl
          · intro h
            obtain ⟨same, rfl⟩ := Header.mk.inj (Option.some.inj h)
            rw [same, Operation.ofMnemonic?_mnemonic] at known
            rw [Option.some.inj known]

theorem plain_eq_ok_iff {line : SourceLine} {op : Operation} {inside : Text} {c : Command} :
    line.plain op inside = .ok c ↔
      ∃ value, (Text.trim inside).length = op.argBits ∧
        Numeral.binary? (Text.trim inside) = some value ∧ c = .plain op value := by
  simp only [plain]
  split
  · rename_i width
    cases read : Numeral.binary? (Text.trim inside) with
    | none =>
        constructor
        · intro h
          cases h
        · rintro ⟨value, _, found, _⟩
          cases found
    | some value =>
        constructor
        · intro h
          exact ⟨value, width, rfl, (Except.ok.inj h).symm⟩
        · rintro ⟨value', _, found, rfl⟩
          rw [Option.some.inj found]
  · rename_i width
    constructor
    · intro h
      cases h
    · rintro ⟨value, same, _⟩
      exact absurd same width

theorem push_eq_ok_iff {line : SourceLine} {op : Operation} {w : PushWidth} {vs : List Int}
    {c : Command} :
    line.push op w vs = .ok c ↔
      op.admitsCount vs.length = true ∧ (∀ v ∈ vs, w.holds v = true) ∧ c = .push op vs := by
  rw [push]
  split
  · rename_i admitted
    split
    · rename_i all
      have held : ∀ v ∈ vs, w.holds v = true := by
        intro v hv
        simpa using List.find?_eq_none.mp all v hv
      constructor
      · intro h
        exact ⟨admitted, held, (Except.ok.inj h).symm⟩
      · rintro ⟨_, _, rfl⟩
        rfl
    · rename_i v found
      constructor
      · intro h
        cases h
      · rintro ⟨_, held, _⟩
        have outside : w.holds v = false := by simpa using List.find?_some found
        rw [held v (List.mem_of_find?_eq_some found)] at outside
        cases outside
  · rename_i refused
    constructor
    · intro h
      cases h
    · rintro ⟨admitted, _⟩
      exact absurd admitted refused

end SourceLine

theorem Except.bind_eq_ok_iff {ε α β : Type} {x : Except ε α} {f : α → Except ε β} {b : β} :
    x >>= f = .ok b ↔ ∃ a, x = .ok a ∧ f a = .ok b := by
  constructor
  · intro h
    cases x with
    | error e => cases h
    | ok a => exact ⟨a, rfl, h⟩
  · rintro ⟨a, rfl, h⟩
    exact h

theorem exists_item_of_commands {line : SourceLine} {rest : List SourceLine}
    {cs : List Command} (h : commands (line :: rest) = .ok cs) :
    ∃ follow rest' c cs', rest = follow ++ rest' ∧
      Item (line.text :: follow.map SourceLine.text) c ∧ commands rest' = .ok cs' ∧
      cs = c :: cs' := by
  rw [commands, Except.bind_eq_ok_iff] at h
  obtain ⟨⟨op, inside⟩, header, h⟩ := h
  rw [SourceLine.header_eq_ok_iff] at header
  dsimp only at h
  cases kind : op.pushWidth? with
  | none =>
      simp only [kind, Except.bind_eq_ok_iff] at h
      obtain ⟨c, plain, cs', later, eq⟩ := h
      obtain ⟨value, width, read, rfl⟩ := SourceLine.plain_eq_ok_iff.mp plain
      exact ⟨[], rest, _, cs', rfl, .plain header kind width read, later, (Except.ok.inj eq).symm⟩
  | some w =>
      simp only [kind] at h
      cases rest with
      | nil =>
          obtain ⟨c, push, eq⟩ := Except.bind_eq_ok_iff.mp h
          obtain ⟨admitted, held, rfl⟩ := SourceLine.push_eq_ok_iff.mp push
          exact ⟨[], [], _, [], rfl, .push header kind .nothing admitted held, rfl,
            (Except.ok.inj eq).symm⟩
      | cons next rest =>
          dsimp only at h
          cases values : Values.ofLine? next.text with
          | none =>
              simp only [values, Except.bind_eq_ok_iff] at h
              obtain ⟨c, push, cs', later, eq⟩ := h
              obtain ⟨admitted, held, rfl⟩ := SourceLine.push_eq_ok_iff.mp push
              exact ⟨[], next :: rest, _, cs', rfl, .push header kind .nothing admitted held,
                later, (Except.ok.inj eq).symm⟩
          | some vs =>
              simp only [values, Except.bind_eq_ok_iff] at h
              obtain ⟨c, push, cs', later, eq⟩ := h
              obtain ⟨admitted, held, rfl⟩ := SourceLine.push_eq_ok_iff.mp push
              exact ⟨[next], rest, _, cs', rfl,
                .push header kind (.values values) admitted held, later,
                (Except.ok.inj eq).symm⟩

/-- An item is taken off the front of the lines, unless it is a push that finds values in the
line after it. -/
theorem commands_of_item {line : SourceLine} {follow rest : List SourceLine} {c : Command}
    {cs : List Command} (item : Item (line.text :: follow.map SourceLine.text) c)
    (boundary : ∀ next later, rest = next :: later → Values.ofLine? next.text = none)
    (later : commands rest = .ok cs) :
    commands (line :: (follow ++ rest)) = .ok (c :: cs) := by
  generalize taken : line.text :: follow.map SourceLine.text = ls at item
  rw [commands]
  cases item with
  | @plain _ inside op value header kind width read =>
      obtain ⟨rfl, none⟩ := List.cons.inj taken
      obtain rfl := List.map_eq_nil_iff.mp none
      refine Except.bind_eq_ok_iff.mpr ⟨_, SourceLine.header_eq_ok_iff.mpr header, ?_⟩
      simp only [kind]
      have plain : line.plain op inside = .ok (.plain op value) :=
        SourceLine.plain_eq_ok_iff.mpr ⟨value, width, read, rfl⟩
      exact Except.bind_eq_ok_iff.mpr ⟨_, plain, Except.bind_eq_ok_iff.mpr ⟨cs, later, rfl⟩⟩
  | @push _ _ op w _ vs header kind follows admitted held =>
      obtain ⟨rfl, eq⟩ := List.cons.inj taken
      refine Except.bind_eq_ok_iff.mpr ⟨_, SourceLine.header_eq_ok_iff.mpr header, ?_⟩
      simp only [kind]
      have push : line.push op w vs = .ok (.push op vs) :=
        SourceLine.push_eq_ok_iff.mpr ⟨admitted, held, rfl⟩
      have whole : (do return (← line.push op w vs) :: (← commands rest))
          = .ok (.push op vs :: cs) :=
        Except.bind_eq_ok_iff.mpr ⟨_, push, Except.bind_eq_ok_iff.mpr ⟨cs, later, rfl⟩⟩
      cases follows with
      | nothing =>
          -- The push looks at the next line and must leave it where it is.
          obtain rfl := List.map_eq_nil_iff.mp eq
          cases rest with
          | nil =>
              obtain rfl := Except.ok.inj later
              exact Except.bind_eq_ok_iff.mpr ⟨_, push, rfl⟩
          | cons next rest =>
              simp only [List.nil_append, boundary next rest rfl]
              exact whole
      | values found =>
          obtain ⟨next, rfl, rfl⟩ := List.map_eq_singleton_iff.mp eq
          simp only [List.cons_append, List.nil_append, found]
          exact whole

theorem commands_eq_ok_iff {lines : List SourceLine} {cs : List Command} :
    commands lines = .ok cs ↔ Items (lines.map SourceLine.text) cs := by
  constructor
  · intro h
    induction hn : lines.length using Nat.strongRecOn generalizing lines cs with
    | ind n ih =>
        cases lines with
        | nil =>
            obtain rfl := Except.ok.inj h
            exact .nil
        | cons line rest =>
            obtain ⟨follow, rest', c, cs', rfl, item, later, rfl⟩ := exists_item_of_commands h
            have shorter : rest'.length < n := by
              rw [← hn, List.length_cons, List.length_append]
              omega
            have items := Items.cons item (ih rest'.length shorter later rfl)
            simpa using items
  · intro h
    generalize eq : lines.map SourceLine.text = ls at h
    induction h generalizing lines with
    | nil =>
        obtain rfl := List.map_eq_nil_iff.mp eq
        rfl
    | @cons ls ls' c cs item items ih =>
        obtain ⟨front, rest, rfl, rfl, rfl⟩ := List.map_eq_append_iff.mp eq
        obtain ⟨line, _, _, starts, _⟩ := item.eq_cons
        obtain ⟨first, follow, rfl, rfl, rfl⟩ := List.map_eq_cons_iff.mp starts
        refine commands_of_item item ?_ (ih rfl)
        rintro next later rfl
        exact items.ofLine?_head

/-- A text is a program if its lines that count divide into items, and then it is the bytes of
their commands. -/
theorem assemble_eq_ok_iff {t : Text} {q : Bytes} :
    assemble t = .ok q ↔ ∃ cs, Items (Text.sourceTexts t) cs ∧ q = Stream.bytes cs := by
  rw [assemble, ← map_text_sourceLines]
  constructor
  · intro h
    cases found : commands (sourceLines t) with
    | error e => rw [found] at h; cases h
    | ok cs =>
        rw [found] at h
        exact ⟨cs, commands_eq_ok_iff.mp found, (Except.ok.inj h).symm⟩
  · rintro ⟨cs, items, rfl⟩
    rw [commands_eq_ok_iff.mpr items]
    rfl

end Hinting

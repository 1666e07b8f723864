/-
# `Hinting.Proofs.Arguments` — what a command line says

A command line is read argument by argument, and an option may take the argument after it,
so what it says is a matter of reading.  Here it is laid down without any reading, as a
grammar (`Speaks`): what each argument says, in order, or two of them together.

    --                    all that follows are file names
    --crlf  --listing  -l                        an option
    --dialect VALUE  --dialect=VALUE             the dialect
    -d VALUE  -dVALUE  -d=VALUE                  the dialect
    -lX                   -l, and then what -X says
    anything else         a file name

A command line that is accepted says something (`exists_speaks`), and then it names its file,
and asks for the output that the dialect, the line ending and the listing it speaks of call
for (`eq_of_names`).  What is in the way of a direct proof is that a reading may leave an
argument pending; `Takes` passes over that, from one settled reading to the next.
-/
import Hinting.CommandLine.Invocation
import Hinting.Proofs.Items

namespace Hinting.CommandLine

/-! ## The grammar -/

inductive Said where
  | dialect (value : Text)
  | crlf
  | listing
  | file (name : Text)
  deriving DecidableEq

/-- A hyphen with something behind it looks like an option. -/
def LooksLikeOption (t : Text) : Prop := ∃ c cs, t = '-' :: c :: cs

/-- `Speaks arguments said`: what the arguments say, in their order. -/
inductive Speaks : List Text → List Said → Prop
  | nothing : Speaks [] []
  | files (names : List Text) : Speaks ("--".toList :: names) (names.map .file)
  | file {name : Text} {rest : List Text} {said : List Said} :
      ¬LooksLikeOption name → Speaks rest said → Speaks (name :: rest) (.file name :: said)
  | crlf {rest : List Text} {said : List Said} :
      Speaks rest said → Speaks ("--crlf".toList :: rest) (.crlf :: said)
  | listing {rest : List Text} {said : List Said} :
      Speaks rest said → Speaks ("--listing".toList :: rest) (.listing :: said)
  | dialect {value : Text} {rest : List Text} {said : List Said} :
      ¬LooksLikeOption value → Speaks rest said →
      Speaks ("--dialect".toList :: value :: rest) (.dialect value :: said)
  | dialectEquals {value : Text} {rest : List Text} {said : List Said} :
      Speaks rest said → Speaks (("--dialect=".toList ++ value) :: rest) (.dialect value :: said)
  | shortListing {rest : List Text} {said : List Said} :
      Speaks rest said → Speaks ("-l".toList :: rest) (.listing :: said)
  | shortListingAnd {c : Char} {cs : Text} {rest : List Text} {said : List Said} :
      c ≠ '-' → Speaks (('-' :: c :: cs) :: rest) said →
      Speaks (('-' :: 'l' :: c :: cs) :: rest) (.listing :: said)
  | shortDialect {value : Text} {rest : List Text} {said : List Said} :
      ¬LooksLikeOption value → Speaks rest said →
      Speaks ("-d".toList :: value :: rest) (.dialect value :: said)
  | shortDialectEquals {value : Text} {rest : List Text} {said : List Said} :
      Speaks rest said → Speaks (("-d=".toList ++ value) :: rest) (.dialect value :: said)
  | shortDialectAttached {c : Char} {cs : Text} {rest : List Text} {said : List Said} :
      c ≠ '=' → Speaks rest said →
      Speaks (('-' :: 'd' :: c :: cs) :: rest) (.dialect (c :: cs) :: said)

namespace Said

def option? : Said → Option Argument
  | dialect _ => some .dialect
  | crlf => some .crlf
  | listing => some .listing
  | file _ => none

def dialect? : Said → Option Text
  | dialect value => some value
  | _ => none

def file? : Said → Option Text
  | file name => some name
  | _ => none

end Said

/-- `Names arguments file d crlf listing`: the command line names the file, with the dialect, and
speaks of line endings and of a listing or not.  Where it does not speak of a dialect, that is
the generic one. -/
def Names (arguments : List Text) (file : Text) (d : Dialect) (crlf listing : Bool) : Prop :=
  ∃ said, Speaks arguments said ∧ said.filterMap Said.file? = [file] ∧
    (match said.filterMap Said.dialect? with
      | [] => d = .ttx
      | value :: _ => Dialect.ofName? value = some d) ∧
    crlf = decide (.crlf ∈ said) ∧ listing = decide (.listing ∈ said)

namespace Reading

/-! ## Settled readings -/

def hear (r : Reading) : Said → Except Exit Reading
  | .dialect value => r.settleDialect value
  | .crlf => r.enrol .crlf
  | .listing => r.enrol .listing
  | .file name =>
    if r.fileRead then .error (.usage (.unexpected name))
    else if name.isEmpty then .error (.usage (.missingValue .file))
    else .ok { r with file := some name, fileRead := true }

theorem settle_of_pending_none {r : Reading} (h : r.pending = none) : r.settle = .ok r := by
  cases r
  cases h
  rfl

theorem enrol_eq_ok_iff {r r' : Reading} {a : Argument} :
    r.enrol a = .ok r' ↔ a ∉ r.settled ∧ r' = { r with settled := r.settled ++ [a] } := by
  rw [enrol]
  split
  · simp_all
  · simp_all [eq_comm]

theorem settleDialect_eq_ok_iff {r r' : Reading} {value : Text} :
    r.settleDialect value = .ok r' ↔ .dialect ∉ r.settled ∧ ∃ d, Dialect.ofName? value = some d ∧
      r' = { r with settled := r.settled ++ [.dialect], dialect := d } := by
  rw [settleDialect, Except.bind_eq_ok_iff]
  constructor
  · rintro ⟨r₁, enrolled, h⟩
    obtain ⟨new, rfl⟩ := enrol_eq_ok_iff.mp enrolled
    cases named : Dialect.ofName? value with
    | none => rw [named] at h; cases h
    | some d =>
        rw [named] at h
        obtain rfl := Except.ok.inj h
        exact ⟨new, d, rfl, rfl⟩
  · rintro ⟨new, d, named, rfl⟩
    exact ⟨_, enrol_eq_ok_iff.mpr ⟨new, rfl⟩, by rw [named]; rfl⟩

theorem of_settle {r s : Reading} (h : r.settle = .ok s) :
    s.pending = none ∧ s.fileRead = r.fileRead := by
  rw [settle] at h
  split at h
  · obtain rfl := Except.ok.inj h
    exact ⟨rfl, rfl⟩
  · cases h
  · obtain ⟨_, d, _, rfl⟩ := settleDialect_eq_ok_iff.mp h
    exact ⟨rfl, rfl⟩
  · split at h
    · cases h
    · obtain rfl := Except.ok.inj h
      exact ⟨rfl, rfl⟩

/-- `Heard said r`: the reading `r` is what the things said come to. -/
structure Heard (said : List Said) (r : Reading) : Prop where
  settled : r.settled = said.filterMap Said.option?
  file : said.filterMap Said.file? = r.file.toList
  fileRead : r.fileRead = r.file.isSome
  dialect : match said.filterMap Said.dialect? with
    | [] => r.dialect = .ttx
    | value :: _ => Dialect.ofName? value = some r.dialect

theorem heard_nothing : Heard [] {} := ⟨rfl, rfl, rfl, rfl⟩

theorem Heard.mem_settled_iff {said : List Said} {r : Reading} {t : Said} {a : Argument}
    (h : Heard said r) (option : t.option? = some a) (flag : a ≠ .dialect) :
    a ∈ r.settled ↔ t ∈ said := by
  rw [h.settled, List.mem_filterMap]
  constructor
  · rintro ⟨t', ht', option'⟩
    have same : t' = t := by
      cases t' <;> cases option' <;> cases t <;> cases option
      · exact absurd rfl flag
      · rfl
      · rfl
    exact same ▸ ht'
  · exact fun ht => ⟨t, ht, option⟩

theorem Heard.dialects_eq_nil {said : List Said} {r : Reading} (h : Heard said r)
    (new : .dialect ∉ r.settled) : said.filterMap Said.dialect? = [] := by
  rw [h.settled] at new
  rw [List.filterMap_eq_nil_iff]
  intro t ht
  cases t with
  | dialect value =>
      have settled : Argument.dialect ∈ said.filterMap Said.option? :=
        List.mem_filterMap.mpr ⟨_, ht, rfl⟩
      exact absurd settled new
  | crlf | listing | file => rfl

theorem Heard.hear {said : List Said} {r r' : Reading} {t : Said} (h : Heard said r)
    (heard : r.hear t = .ok r') : Heard (said ++ [t]) r' := by
  cases t with
  | dialect value =>
      obtain ⟨new, d, named, rfl⟩ := settleDialect_eq_ok_iff.mp heard
      have first := h.dialects_eq_nil new
      refine ⟨?_, ?_, h.fileRead, ?_⟩
      · simp [h.settled, Said.option?]
      · simp [← h.file, Said.file?]
      · simpa [first, Said.dialect?] using named
  | crlf | listing =>
      obtain ⟨_, rfl⟩ := enrol_eq_ok_iff.mp heard
      refine ⟨?_, ?_, h.fileRead, ?_⟩
      · simp [h.settled, Said.option?]
      · simp [← h.file, Said.file?]
      · rw [List.filterMap_append]
        exact (List.append_nil (said.filterMap Said.dialect?)).symm ▸ h.dialect
  | file name =>
      rw [Reading.hear] at heard
      split at heard
      · cases heard
      · rename_i unread
        split at heard
        · cases heard
        · obtain rfl := Except.ok.inj heard
          have none : r.file = none := by simpa [h.fileRead] using unread
          refine ⟨?_, ?_, rfl, ?_⟩
          · simp [h.settled, Said.option?]
          · simp [h.file, none, Said.file?]
          · rw [List.filterMap_append]
            exact (List.append_nil (said.filterMap Said.dialect?)).symm ▸ h.dialect

theorem Heard.hearAll : ∀ {later said : List Said} {r r' : Reading}, Heard said r →
    later.foldlM Reading.hear r = .ok r' → Heard (said ++ later) r' := by
  intro later
  induction later with
  | nil =>
      intro said r r' h heard
      obtain rfl := Except.ok.inj heard
      rwa [List.append_nil]
  | cons t later ih =>
      intro said r r' h heard
      rw [List.foldlM_cons, Except.bind_eq_ok_iff] at heard
      obtain ⟨r₁, first, rest⟩ := heard
      rw [List.append_cons]
      exact ih (h.hear first) rest

/-! ## Readings with something pending -/

/-- `Takes r t r'`: going from the reading `r` to `r'` is hearing one thing more, once what they
leave pending is settled. -/
structure Takes (r : Reading) (t : Said) (r' : Reading) : Prop where
  /-- No option waits for its value. -/
  ready : r'.pending ≠ some (.dialect none)
  hears : ∀ {s'}, r'.settle = .ok s' → ∃ s, r.settle = .ok s ∧ s.hear t = .ok s'

section
variable {r r' : Reading}

theorem takes_flag {a : Argument} {t : Said} (option : t.option? = some a)
    (flag : a ≠ .dialect) (h : r.readFlag a = .ok r') : Takes r t r' := by
  rw [readFlag, Except.bind_eq_ok_iff] at h
  obtain ⟨s, settled, h⟩ := h
  have enrolled : s.enrol a = .ok r' := by
    cases t with
    | dialect value => cases option; exact absurd rfl flag
    | crlf | listing => cases option; exact h
    | file name => cases option
  have none : r'.pending = none := by
    obtain ⟨_, rfl⟩ := enrol_eq_ok_iff.mp enrolled
    exact (of_settle settled).1
  refine ⟨by simp [none], fun {s'} later => ⟨s, settled, ?_⟩⟩
  obtain rfl := Except.ok.inj ((settle_of_pending_none none).symm.trans later)
  cases t with
  | dialect value => cases option; exact absurd rfl flag
  | crlf | listing => cases option; exact enrolled
  | file name => cases option

theorem takes_dialect {value : Text} (h : r.readDialect (some value) = .ok r') :
    Takes r (.dialect value) r' := by
  rw [readDialect, Except.bind_eq_ok_iff] at h
  obtain ⟨s, settled, h⟩ := h
  have none : r'.pending = none := by
    obtain ⟨_, d, _, rfl⟩ := settleDialect_eq_ok_iff.mp h
    exact (of_settle settled).1
  refine ⟨by simp [none], fun {s'} later => ⟨s, settled, ?_⟩⟩
  obtain rfl := Except.ok.inj ((settle_of_pending_none none).symm.trans later)
  exact h

theorem waits_of_readDialect (h : r.readDialect none = .ok r') :
    r'.pending = some (.dialect none) := by
  obtain ⟨s, _, h⟩ := Except.bind_eq_ok_iff.mp h
  obtain rfl := Except.ok.inj h
  rfl

theorem takes_dialect_next (h : r.readDialect none = .ok r') (value : Text) :
    Takes r (.dialect value) { r' with pending := some (.dialect (some value)) } := by
  obtain ⟨s, settled, h⟩ := Except.bind_eq_ok_iff.mp h
  obtain rfl := Except.ok.inj h
  refine ⟨by simp, fun {s'} later => ⟨s, settled, ?_⟩⟩
  have idle := (of_settle settled).1
  have same : { s with pending := none } = s := by
    cases s
    cases idle
    rfl
  rw [← same]
  exact later

theorem takes_file {name : Text} (h : r.readFile name = .ok r') : Takes r (.file name) r' := by
  rw [readFile] at h
  split at h
  · cases h
  · rename_i unread
    obtain ⟨s, settled, h⟩ := Except.bind_eq_ok_iff.mp h
    obtain rfl := Except.ok.inj h
    refine ⟨by simp, fun {s'} later => ⟨s, settled, ?_⟩⟩
    obtain ⟨none, read⟩ := of_settle settled
    rw [hear, read, if_neg unread]
    cases s
    cases none
    exact later

end

/-- `Leads r arguments s`: reading the arguments on from `r`, and settling, gives `s`. -/
def Leads (r : Reading) (arguments : List Text) (s : Reading) : Prop :=
  ∃ r', r.readAll arguments = .ok r' ∧ r'.settle = .ok s

theorem Takes.cons {r r' s : Reading} {t : Said} {said : List Said} (h : Takes r t r')
    (later : ∃ s', r'.settle = .ok s' ∧ said.foldlM Reading.hear s' = .ok s) :
    ∃ s', r.settle = .ok s' ∧ (t :: said).foldlM Reading.hear s' = .ok s := by
  obtain ⟨s₁, settled, heard⟩ := later
  obtain ⟨s', before, first⟩ := h.hears settled
  exact ⟨s', before, Except.bind_eq_ok_iff.mpr ⟨s₁, first, heard⟩⟩

section
variable {r s : Reading} {rest : List Text} {said : List Said}

/-! ## The arguments, one by one -/

theorem readAll_plain {t : Text} (plain : ¬LooksLikeOption t) :
    r.readAll (t :: rest) = r.readPlain t >>= fun r => r.readAll rest := by
  rw [readAll]
  · rintro rfl
    exact plain ⟨_, _, rfl⟩
  · rintro option rfl
    exact plain ⟨_, _, rfl⟩
  · rintro c cs rfl
    exact plain ⟨_, _, rfl⟩

theorem readAll_short {c : Char} (short : c ≠ '-') (cs : Text) :
    r.readAll (('-' :: c :: cs) :: rest) = r.readShort (c :: cs) >>= fun r => r.readAll rest := by
  rw [readAll]
  · exact fun hyphen _ => short hyphen
  · exact fun hyphen => short hyphen

theorem readAll_long {option : Text} (long : option ≠ []) :
    r.readAll (('-' :: '-' :: option) :: rest) = r.readLong option >>= fun r => r.readAll rest := by
  rw [readAll]
  exact long

theorem readPlain_of_ready (ready : r.pending ≠ some (.dialect none)) (t : Text) :
    r.readPlain t = r.readFile t := by
  rw [readPlain]
  split
  · contradiction
  · rfl

theorem exists_leads_of_bind {argument : Text} {first : Except Exit Reading}
    (step : r.readAll (argument :: rest) = first >>= fun r => r.readAll rest)
    (h : Leads r (argument :: rest) s) : ∃ r₁, first = .ok r₁ ∧ Leads r₁ rest s := by
  obtain ⟨r', read, settled⟩ := h
  rw [step] at read
  obtain ⟨r₁, taken, later⟩ := Except.bind_eq_ok_iff.mp read
  exact ⟨r₁, taken, r', later, settled⟩

/-- An option that waits takes an argument that does not look like an option. -/
theorem leads_of_waiting {value : Text} (waits : r.pending = some (.dialect none))
    (plain : ¬LooksLikeOption value) (h : Leads r (value :: rest) s) :
    Leads { r with pending := some (.dialect (some value)) } rest s := by
  obtain ⟨r₁, taken, later⟩ := exists_leads_of_bind (readAll_plain plain) h
  rw [readPlain, waits] at taken
  obtain rfl := Except.ok.inj taken
  exact later

/-! ## The options, one by one -/

theorem readAll_crlf :
    r.readAll ("--crlf".toList :: rest) = r.readFlag .crlf >>= fun r => r.readAll rest := by
  have spelled : "--crlf".toList = '-' :: '-' :: "crlf".toList := by decide
  rw [spelled, readAll_long (by decide)]
  rfl

theorem readAll_listing :
    r.readAll ("--listing".toList :: rest) = r.readFlag .listing >>= fun r => r.readAll rest := by
  have spelled : "--listing".toList = '-' :: '-' :: "listing".toList := by decide
  rw [spelled, readAll_long (by decide)]
  rfl

theorem readAll_dialect :
    r.readAll ("--dialect".toList :: rest) = r.readDialect none >>= fun r => r.readAll rest := by
  have spelled : "--dialect".toList = '-' :: '-' :: "dialect".toList := by decide
  rw [spelled, readAll_long (by decide)]
  rfl

theorem readAll_dialect_equals (value : Text) :
    r.readAll (("--dialect=".toList ++ value) :: rest)
      = r.readDialect (some value) >>= fun r => r.readAll rest := by
  have spelled : "--dialect=".toList = '-' :: '-' :: "dialect=".toList := by decide
  rw [spelled, List.cons_append, List.cons_append, readAll_long (by simp)]
  rfl

theorem readAll_short_listing :
    r.readAll ("-l".toList :: rest) = r.readFlag .listing >>= fun r => r.readAll rest := by
  have spelled : "-l".toList = ['-', 'l'] := by decide
  rw [spelled, readAll_short (by decide)]
  cases flag : r.readFlag .listing <;> simp [readShort, Argument.ofShort?, flag, bind, Except.bind]

theorem readAll_short_listing_and {c : Char} (short : c ≠ '-') (cs : Text) :
    r.readAll (('-' :: 'l' :: c :: cs) :: rest)
      = r.readFlag .listing >>= fun r => r.readAll (('-' :: c :: cs) :: rest) := by
  rw [readAll_short (by decide), readShort]
  cases flag : r.readFlag .listing with
  | error e => simp [Argument.ofShort?, flag, bind, Except.bind]
  | ok r₁ =>
      simp [Argument.ofShort?, flag, bind, Except.bind, readAll_short short]

theorem readAll_short_dialect :
    r.readAll ("-d".toList :: rest) = r.readDialect none >>= fun r => r.readAll rest := by
  have spelled : "-d".toList = ['-', 'd'] := by decide
  rw [spelled, readAll_short (by decide)]
  rfl

theorem readAll_short_dialect_equals (value : Text) :
    r.readAll (("-d=".toList ++ value) :: rest)
      = r.readDialect (some value) >>= fun r => r.readAll rest := by
  have spelled : "-d=".toList = ['-', 'd', '='] := by decide
  rw [spelled, List.cons_append, List.cons_append, readAll_short (by decide)]
  rfl

theorem attachedToShort_of_ne {c : Char} (h : c ≠ '=') (cs : Text) :
    attachedToShort (c :: cs) = some (c :: cs) := by
  rw [attachedToShort]
  · exact List.cons_ne_nil _ _
  · intro value same
    exact h (List.cons.inj same).1

theorem readAll_short_dialect_attached {c : Char} (attached : c ≠ '=') (cs : Text) :
    r.readAll (('-' :: 'd' :: c :: cs) :: rest)
      = r.readDialect (some (c :: cs)) >>= fun r => r.readAll rest := by
  rw [readAll_short (by decide), ← attachedToShort_of_ne attached]
  rfl

/-! ## What is said is heard -/

theorem hears_files : ∀ {names : List Text} {r r' : Reading},
    names.foldlM readFile r = .ok r' → r'.settle = .ok s →
      ∃ s', r.settle = .ok s' ∧ (names.map Said.file).foldlM Reading.hear s' = .ok s := by
  intro names
  induction names with
  | nil =>
      intro r r' read settled
      obtain rfl := Except.ok.inj read
      exact ⟨s, settled, rfl⟩
  | cons name names ih =>
      intro r r' read settled
      rw [List.foldlM_cons, Except.bind_eq_ok_iff] at read
      obtain ⟨r₁, first, later⟩ := read
      exact (takes_file first).cons (ih later settled)

/-- **What the arguments say is what a reading of them hears**, where it leads anywhere.  By
induction on the grammar, with one `Takes` for each thing said. -/
theorem hears_of_speaks {arguments : List Text} (spoken : Speaks arguments said) :
    ∀ {r s : Reading}, r.pending ≠ some (.dialect none) → Leads r arguments s →
      ∃ s', r.settle = .ok s' ∧ said.foldlM Reading.hear s' = .ok s := by
  induction spoken with
  | nothing =>
      intro r s _ h
      obtain ⟨r', read, settled⟩ := h
      obtain rfl := Except.ok.inj read
      exact ⟨s, settled, rfl⟩
  | files names =>
      intro r s _ h
      obtain ⟨r', read, settled⟩ := h
      exact hears_files read settled
  | file plain _ ih =>
      intro r s ready h
      obtain ⟨r₁, taken, later⟩ := exists_leads_of_bind (readAll_plain plain) h
      rw [readPlain_of_ready ready] at taken
      have takes := takes_file taken
      exact takes.cons (ih takes.ready later)
  | crlf _ ih =>
      intro r s _ h
      obtain ⟨r₁, taken, later⟩ := exists_leads_of_bind readAll_crlf h
      have takes : Takes r .crlf r₁ := takes_flag rfl (by decide) taken
      exact takes.cons (ih takes.ready later)
  | listing _ ih =>
      intro r s _ h
      obtain ⟨r₁, taken, later⟩ := exists_leads_of_bind readAll_listing h
      have takes : Takes r .listing r₁ := takes_flag rfl (by decide) taken
      exact takes.cons (ih takes.ready later)
  | @dialect value _ _ plain _ ih =>
      intro r s _ h
      obtain ⟨r₁, taken, later⟩ := exists_leads_of_bind readAll_dialect h
      have takes := takes_dialect_next taken value
      exact takes.cons (ih takes.ready (leads_of_waiting (waits_of_readDialect taken) plain later))
  | dialectEquals _ ih =>
      intro r s _ h
      obtain ⟨r₁, taken, later⟩ := exists_leads_of_bind (readAll_dialect_equals _) h
      have takes := takes_dialect taken
      exact takes.cons (ih takes.ready later)
  | shortListing _ ih =>
      intro r s _ h
      obtain ⟨r₁, taken, later⟩ := exists_leads_of_bind readAll_short_listing h
      have takes : Takes r .listing r₁ := takes_flag rfl (by decide) taken
      exact takes.cons (ih takes.ready later)
  | shortListingAnd short _ ih =>
      intro r s _ h
      obtain ⟨r', read, settled⟩ := h
      rw [readAll_short_listing_and short] at read
      obtain ⟨r₁, taken, later⟩ := Except.bind_eq_ok_iff.mp read
      have takes : Takes r .listing r₁ := takes_flag rfl (by decide) taken
      exact takes.cons (ih takes.ready ⟨r', later, settled⟩)
  | @shortDialect value _ _ plain _ ih =>
      intro r s _ h
      obtain ⟨r₁, taken, later⟩ := exists_leads_of_bind readAll_short_dialect h
      have takes := takes_dialect_next taken value
      exact takes.cons (ih takes.ready (leads_of_waiting (waits_of_readDialect taken) plain later))
  | shortDialectEquals _ ih =>
      intro r s _ h
      obtain ⟨r₁, taken, later⟩ := exists_leads_of_bind (readAll_short_dialect_equals _) h
      have takes := takes_dialect taken
      exact takes.cons (ih takes.ready later)
  | shortDialectAttached attached _ ih =>
      intro r s _ h
      obtain ⟨r₁, taken, later⟩ :=
        exists_leads_of_bind (readAll_short_dialect_attached attached _) h
      have takes := takes_dialect taken
      exact takes.cons (ih takes.ready later)

/-! ## What is read was said -/

theorem ready_of_settle (h : r.settle = .ok s) : r.pending ≠ some (.dialect none) := by
  intro waits
  rw [settle, waits] at h
  cases h

/-- `Completes r arguments`: behind the reading `r` the arguments say something, after the value
of the option that waits for one, if any does. -/
inductive Completes (r : Reading) : List Text → Prop
  | ready {arguments : List Text} {said : List Said} :
      r.pending ≠ some (.dialect none) → Speaks arguments said → Completes r arguments
  | waiting {value : Text} {rest : List Text} {said : List Said} :
      r.pending = some (.dialect none) → ¬LooksLikeOption value → Speaks rest said →
      Completes r (value :: rest)

theorem Completes.speaks_of_ready (h : Completes r rest)
    (ready : r.pending ≠ some (.dialect none)) : ∃ said, Speaks rest said := by
  cases h with
  | ready _ spoken => exact ⟨_, spoken⟩
  | waiting waits => exact absurd waits ready

theorem Completes.speaks_of_waiting (h : Completes r rest)
    (waits : r.pending = some (.dialect none)) :
    ∃ value rest' said, rest = value :: rest' ∧ ¬LooksLikeOption value ∧ Speaks rest' said := by
  cases h with
  | ready ready => exact absurd waits ready
  | waiting _ plain spoken => exact ⟨_, _, _, rfl, plain, spoken⟩

theorem eq_name_append_attached (option : Text) :
    option = option.takeWhile (· ≠ '=') ++
      (match (option.dropWhile (· ≠ '=')).tail? with
        | none => []
        | some value => '=' :: value) := by
  have whole : option.takeWhile (· ≠ '=') ++ option.dropWhile (· ≠ '=') = option :=
    List.takeWhile_append_dropWhile
  have stops := List.head?_dropWhile_not (· ≠ '=') option
  cases after : option.dropWhile (· ≠ '=') with
  | nil =>
      rw [after] at whole
      exact whole.symm
  | cons c value =>
      rw [after] at whole stops
      have mark : c = '=' := by simpa using stops
      rw [mark] at whole
      exact whole.symm

theorem ofLong?_eq_some {name : Text} {a : Argument} (h : Argument.ofLong? name = some a) :
    a = .dialect ∧ name = "dialect".toList ∨ a = .crlf ∧ name = "crlf".toList ∨
      a = .listing ∧ name = "listing".toList ∨ a = .help ∨ a = .version := by
  rw [Argument.ofLong?] at h
  split at h
  · cases h; simp_all
  · split at h
    · cases h; simp_all
    · split at h
      · cases h; simp_all
      · split at h
        · cases h; simp_all
        · split at h
          · cases h; simp_all
          · cases h

theorem exists_settle_of_readFlag {r₁ : Reading} {a : Argument} (h : r.readFlag a = .ok r₁) :
    (∃ s, r.settle = .ok s) ∧ a ≠ .help ∧ a ≠ .version := by
  obtain ⟨s, settled, h⟩ := Except.bind_eq_ok_iff.mp h
  refine ⟨⟨s, settled⟩, ?_, ?_⟩
  · rintro rfl
    cases h
  · rintro rfl
    cases h

theorem speaks_of_readFlag {r₁ : Reading} {a : Argument} {t : Said} (option : t.option? = some a)
    (flag : a ≠ .dialect) (read : r.readFlag a = .ok r₁) (later : Completes r₁ rest) :
    (∃ s, r.settle = .ok s) ∧ ∃ said, Speaks rest said :=
  ⟨(exists_settle_of_readFlag read).1,
    later.speaks_of_ready (takes_flag option flag read).ready⟩

theorem exists_settle_of_readDialect {r₁ : Reading} {attached : Option Text}
    (h : r.readDialect attached = .ok r₁) : ∃ s, r.settle = .ok s := by
  obtain ⟨s, settled, _⟩ := Except.bind_eq_ok_iff.mp h
  exact ⟨s, settled⟩

theorem speaks_of_readLong {r₁ : Reading} {option : Text} (taken : r.readLong option = .ok r₁)
    (later : Completes r₁ rest) :
    (∃ s, r.settle = .ok s) ∧ ∃ said, Speaks (('-' :: '-' :: option) :: rest) said := by
  have whole := eq_name_append_attached option
  rw [readLong] at taken
  generalize option.takeWhile (· ≠ '=') = name at taken whole
  generalize (option.dropWhile (· ≠ '=')).tail? = attached at taken whole
  cases known : Argument.ofLong? name with
  | none =>
      simp only [known] at taken
      cases taken
  | some a =>
      simp only [known] at taken
      obtain ⟨rfl, rfl⟩ | other := ofLong?_eq_some known
      · have read : r.readDialect attached = .ok r₁ := taken
        refine ⟨exists_settle_of_readDialect read, ?_⟩
        cases attached with
        | none =>
            obtain ⟨value, rest', said, rfl, plain, spoken⟩ :=
              later.speaks_of_waiting (waits_of_readDialect read)
            rw [whole, List.append_nil]
            exact ⟨_, .dialect plain spoken⟩
        | some value =>
            obtain ⟨said, spoken⟩ := later.speaks_of_ready (takes_dialect read).ready
            rw [whole]
            exact ⟨_, .dialectEquals spoken⟩
      · cases attached with
        | some value =>
            obtain ⟨rfl, _⟩ | ⟨rfl, _⟩ | rfl | rfl := other <;> cases taken
        | none =>
            rw [List.append_nil] at whole
            obtain ⟨rfl, rfl⟩ | ⟨rfl, rfl⟩ | rfl | rfl := other
            · obtain ⟨before, said, spoken⟩ :=
                speaks_of_readFlag (t := .crlf) rfl (by decide) taken later
              rw [whole]
              exact ⟨before, _, .crlf spoken⟩
            · obtain ⟨before, said, spoken⟩ :=
                speaks_of_readFlag (t := .listing) rfl (by decide) taken later
              rw [whole]
              exact ⟨before, _, .listing spoken⟩
            · exact absurd rfl (exists_settle_of_readFlag taken).2.1
            · exact absurd rfl (exists_settle_of_readFlag taken).2.2

theorem ofShort?_eq_some {c : Char} {a : Argument} (h : Argument.ofShort? c = some a) :
    a = .dialect ∧ c = 'd' ∨ a = .listing ∧ c = 'l' ∨ a = .help ∨ a = .version := by
  unfold Argument.ofShort? at h
  split at h <;> cases h <;> simp

theorem speaks_of_shortDialect {r₁ : Reading} {cs : Text}
    (read : r.readDialect (attachedToShort cs) = .ok r₁) (later : Completes r₁ rest) :
    ∃ said, Speaks (('-' :: 'd' :: cs) :: rest) said := by
  cases cs with
  | nil =>
      obtain ⟨value, rest', said, rfl, plain, spoken⟩ :=
        later.speaks_of_waiting (waits_of_readDialect read)
      exact ⟨_, .shortDialect plain spoken⟩
  | cons c cs =>
      by_cases mark : c = '='
      · subst mark
        have takes : Takes r (.dialect cs) r₁ := takes_dialect read
        obtain ⟨said, spoken⟩ := later.speaks_of_ready takes.ready
        exact ⟨_, .shortDialectEquals spoken⟩
      · rw [attachedToShort_of_ne mark] at read
        obtain ⟨said, spoken⟩ := later.speaks_of_ready (takes_dialect read).ready
        exact ⟨_, .shortDialectAttached mark spoken⟩

/-- By induction on the number of short options in the argument. -/
theorem speaks_of_readShort {cs : Text} : ∀ {c : Char} {r r₁ : Reading},
    r.readShort (c :: cs) = .ok r₁ → Completes r₁ rest →
      (∃ s, r.settle = .ok s) ∧ ∃ said, Speaks (('-' :: c :: cs) :: rest) said := by
  induction hn : cs.length using Nat.strongRecOn generalizing cs with
  | ind n ih =>
      intro c r r₁ taken later
      rw [readShort] at taken
      cases known : Argument.ofShort? c with
      | none => simp [known] at taken
      | some a =>
          simp only [known] at taken
          obtain ⟨rfl, rfl⟩ | other := ofShort?_eq_some known
          · have read : r.readDialect (attachedToShort cs) = .ok r₁ := taken
            exact ⟨exists_settle_of_readDialect read, speaks_of_shortDialect read later⟩
          · have flags : ∃ r₂, r.readFlag a = .ok r₂ ∧ r₂.readShort cs = .ok r₁ := by
              obtain ⟨rfl, _⟩ | rfl | rfl := other <;> exact Except.bind_eq_ok_iff.mp taken
            obtain ⟨r₂, flag, others⟩ := flags
            obtain ⟨before, noHelp, noVersion⟩ := exists_settle_of_readFlag flag
            obtain ⟨rfl, rfl⟩ | rfl | rfl := other
            · refine ⟨before, ?_⟩
              cases cs with
              | nil =>
                  obtain rfl := Except.ok.inj others
                  obtain ⟨_, said, spoken⟩ :=
                    speaks_of_readFlag (t := .listing) rfl (by decide) flag later
                  exact ⟨_, .shortListing spoken⟩
              | cons c' cs =>
                  have shorter : cs.length < n := by
                    rw [← hn]
                    exact Nat.lt_succ_self _
                  obtain ⟨_, said, spoken⟩ := ih _ shorter rfl others later
                  refine ⟨_, .shortListingAnd ?_ spoken⟩
                  rintro rfl
                  cases others
            · exact absurd rfl noHelp
            · exact absurd rfl noVersion

/-- **A reading that leads anywhere has read what the arguments say.** -/
theorem completes_of_leads : ∀ {arguments : List Text} {r s : Reading}, Leads r arguments s →
    Completes r arguments := by
  intro arguments
  induction arguments with
  | nil =>
      intro r s h
      obtain ⟨r', read, settled⟩ := h
      obtain rfl := Except.ok.inj read
      exact .ready (ready_of_settle settled) .nothing
  | cons argument rest ih =>
      intro r s h
      by_cases option : LooksLikeOption argument
      · obtain ⟨c, cs, rfl⟩ := option
        by_cases long : c = '-'
        · subst long
          by_cases files : cs = []
          · subst files
            obtain ⟨r', read, settled⟩ := h
            obtain ⟨s', before, _⟩ := hears_files read settled
            exact .ready (ready_of_settle before) (.files rest)
          · obtain ⟨r₁, taken, later⟩ := exists_leads_of_bind (readAll_long files) h
            obtain ⟨⟨s', before⟩, said, spoken⟩ := speaks_of_readLong taken (ih later)
            exact .ready (ready_of_settle before) spoken
        · obtain ⟨r₁, taken, later⟩ := exists_leads_of_bind (readAll_short long cs) h
          obtain ⟨⟨s', before⟩, said, spoken⟩ := speaks_of_readShort taken (ih later)
          exact .ready (ready_of_settle before) spoken
      · obtain ⟨r₁, taken, later⟩ := exists_leads_of_bind (readAll_plain option) h
        by_cases waits : r.pending = some (.dialect none)
        · rw [readPlain, waits] at taken
          obtain rfl := Except.ok.inj taken
          obtain ⟨said, spoken⟩ := (ih later).speaks_of_ready (by simp)
          exact .waiting waits option spoken
        · rw [readPlain_of_ready waits] at taken
          obtain ⟨said, spoken⟩ := (ih later).speaks_of_ready (takes_file taken).ready
          exact .ready waits (.file option spoken)

end

end Reading

/-! ## Command lines that are accepted -/

section
variable {arguments : List Text} {i : Invocation}

theorem leads_of_accepted (accepted : Invocation.ofArguments arguments = .ok i) :
    ∃ s, Reading.Leads {} arguments s ∧ s.file = some i.file ∧ i.output = s.output := by
  obtain ⟨r, read, finished⟩ := Except.bind_eq_ok_iff.mp accepted
  obtain ⟨s, settled, h⟩ := Except.bind_eq_ok_iff.mp finished
  refine ⟨s, ⟨r, read, settled⟩, ?_⟩
  cases conflict : s.conflict? with
  | some e =>
      simp only [conflict] at h
      cases h
  | none =>
      cases named : s.file with
      | none =>
          simp only [conflict, named] at h
          cases h
      | some file =>
          simp only [conflict, named] at h
          obtain rfl := Except.ok.inj h
          exact ⟨rfl, rfl⟩

theorem exists_heard (accepted : Invocation.ofArguments arguments = .ok i) {said : List Said}
    (spoken : Speaks arguments said) :
    ∃ s, Reading.Heard said s ∧ s.file = some i.file ∧ i.output = s.output := by
  obtain ⟨s, leads, file, output⟩ := leads_of_accepted accepted
  obtain ⟨s', settled, heard⟩ := Reading.hears_of_speaks spoken (by decide) leads
  obtain rfl := Except.ok.inj settled
  exact ⟨s, Reading.heard_nothing.hearAll heard, file, output⟩

theorem exists_speaks (accepted : Invocation.ofArguments arguments = .ok i) :
    ∃ said, Speaks arguments said := by
  obtain ⟨s, leads, _⟩ := leads_of_accepted accepted
  exact (Reading.completes_of_leads leads).speaks_of_ready (by decide)

theorem exists_names (accepted : Invocation.ofArguments arguments = .ok i) :
    ∃ d crlf listing, Names arguments i.file d crlf listing := by
  obtain ⟨said, spoken⟩ := exists_speaks accepted
  obtain ⟨s, heard, file, _⟩ := exists_heard accepted spoken
  refine ⟨s.dialect, _, _, said, spoken, ?_, heard.dialect, rfl, rfl⟩
  rw [heard.file, file]
  rfl

theorem eq_of_names (accepted : Invocation.ofArguments arguments = .ok i) {file : Text}
    {d : Dialect} {crlf listing : Bool} (names : Names arguments file d crlf listing) :
    i = ⟨file, if listing then .listing
      else .assembly ⟨d, if crlf then ['\r', '\n'] else ['\n']⟩⟩ := by
  obtain ⟨said, spoken, named, dialect, rfl, rfl⟩ := names
  obtain ⟨s, heard, file', output⟩ := exists_heard accepted spoken
  obtain ⟨own, asked⟩ := i
  have same : own = file := by
    rw [heard.file, file'] at named
    exact (List.cons.inj named).1
  have spelled : s.dialect = d := by
    have told := heard.dialect
    revert told dialect
    cases said.filterMap Said.dialect? with
    | nil => intro dialect told; rw [dialect, told]
    | cons value values =>
        intro dialect told
        exact Option.some.inj (told.symm.trans dialect)
  have crlf : .crlf ∈ s.settled ↔ .crlf ∈ said := heard.mem_settled_iff rfl (by decide)
  have listing : .listing ∈ s.settled ↔ .listing ∈ said := heard.mem_settled_iff rfl (by decide)
  rw [same, show asked = s.output from output, Reading.output, spelled]
  simp only [crlf, listing, decide_eq_true_eq]

end

end Hinting.CommandLine

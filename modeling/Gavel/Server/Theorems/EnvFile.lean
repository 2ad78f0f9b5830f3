import Gavel.Server.EnvFile

/-!
# Environment files written and read

A file of quoted assignments among blank lines and comments is read back, except where a comment follows
the quotes: then the value does not end with its quote any more, and the quotes stay.
-/

namespace Gavel.Server.EnvFile

open Gavel.Text

/-! ## Writing -/

/-- White space that ends no line. -/
abbrev Blanks := { s : Text // ∀ c ∈ s, isWhitespace c = true ∧ c ≠ '\n' }

inductive Quote where
  | double | single

def Quote.char : Quote → Char
  | double => '"'
  | single => '\''

/-- A comment after an assignment, at least one blank before it and no quote in it. -/
structure TrailingComment where
  before : Blanks
  text : Text
  nonempty : before.val ≠ []
  plain : ∀ c ∈ text, c ≠ '"' ∧ c ≠ '\'' ∧ c ≠ '\n'

/-- An assignment as it is written. -/
structure Assignment where
  key : Text
  value : Text
  quote : Quote
  /-- The blanks after `export `, where it stands before the key. -/
  exported : Option Blanks
  lead : Blanks
  tail : Blanks
  comment : Option TrailingComment
  key_chars : ∀ c ∈ key, isKeyChar c = true
  value_line : '\n' ∉ value
  value_quote : quote.char ∉ value

inductive Line where
  | assignment (a : Assignment)
  | blank (blanks : Blanks)
  | comment (lead : Blanks) (text : { s : Text // '\n' ∉ s })

inductive Ending where
  | lf | crlf

namespace Assignment

variable (a : Assignment)

def entry : Entry := ⟨a.key, a.value⟩

def quoted : Text := a.quote.char :: a.value ++ [a.quote.char]

/-- What follows the quotes. -/
def after : Text :=
  match a.comment with
  | some comment => a.tail.val ++ comment.before.val ++ '#' :: comment.text
  | none => a.tail.val

def exportText : Text :=
  match a.exported with
  | some blanks => "export ".toList ++ blanks.val
  | none => []

def text : Text := a.lead.val ++ (a.exportText ++ (a.key ++ '=' :: (a.quoted ++ a.after)))

end Assignment

def Line.text : Line → Text
  | assignment a => a.text
  | blank blanks => blanks.val
  | comment lead text => lead.val ++ '#' :: text.val

/-- What is before the line feed. -/
def Ending.carriage : Ending → Text
  | lf => []
  | crlf => ['\r']

def Ending.text (ending : Ending) : Text := ending.carriage ++ ['\n']

/-- The assignment of a line. -/
def Line.assignment? : Line → Option Assignment
  | assignment a => some a
  | _ => none

def render (file : List (Line × Ending)) : Text := file.flatMap fun line => line.1.text ++ line.2.text

def assignments (file : List (Line × Ending)) : List Assignment := file.filterMap (·.1.assignment?)

/-! ## One line -/

theorem isWhitespace_of_keyChar {c : Char} (h : isKeyChar c = true) :
    isWhitespace c = false ∧ c ≠ '=' := by
  have hascii : isAscii c = true := by
    simp only [isKeyChar, Bool.or_eq_true, Bool.and_eq_true, decide_eq_true_eq] at h
    rcases h with h | rfl
    · exact h.1
    · rfl
  have hall : ∀ i < 128, isKeyChar (Char.ofNat i) = true →
      isWhitespace (Char.ofNat i) = false ∧ Char.ofNat i ≠ '=' := by decide
  have hc := hall c.toNat (of_decide_eq_true hascii)
  rw [Char.ofNat_toNat] at hc
  exact hc h

/-- Only what is left of a line after trimming counts. -/
def parseTrimmed (line : Text) : Option Entry :=
  if line.isEmpty ∨ line.head? = some '#' then none
  else
    let line := ((dropFirst? "export ".toList line).getD line).dropWhile isWhitespace
    match splitOnce '=' line with
    | none => none
    | some (key, value) =>
        let key := trimMatches isWhitespace key
        if key.isEmpty ∨ ¬ key.all isKeyChar then none
        else some ⟨key, cleanValue (trimMatches isWhitespace value)⟩

theorem isWhitespace_return {c : Char} (h : c = '\r') : isWhitespace c = true := by
  rw [h]
  rfl

theorem parseLine_eq (raw : Text) : parseLine raw = parseTrimmed (trimMatches isWhitespace raw) := by
  have hreturn : ∀ c ∈ raw.rtakeWhile fun d => d = '\r', isWhitespace c = true := by
    intro c hc
    have heq := List.mem_rtakeWhile_imp hc
    exact isWhitespace_return (of_decide_eq_true heq)
  have htrim : trimMatches isWhitespace (raw.rdropWhile (· = '\r')) = trimMatches isWhitespace raw := by
    conv_rhs => rw [← List.rdropWhile_append_rtakeWhile (p := fun d => d = '\r') (l := raw)]
    exact (trimMatches_append_right hreturn).symm
  rw [← htrim]
  rfl

theorem parseLine_append {line tail : Text} (h : ∀ c ∈ tail, isWhitespace c = true) :
    parseLine (line ++ tail) = parseLine line := by
  rw [parseLine_eq, parseLine_eq, trimMatches_append_right h]

theorem parseLine_chomp (line : Text) (ending : Ending) :
    parseLine (chomp (line ++ ending.carriage)) = parseLine line := by
  have hcarriage : ∀ c ∈ ending.carriage, isWhitespace c = true := by
    cases ending with
    | lf => simp [Ending.carriage]
    | crlf =>
        intro c hc
        exact isWhitespace_return (List.mem_singleton.mp hc)
  obtain ⟨tail, heq, htail⟩ := exists_chomp (line ++ ending.carriage)
  calc
    parseLine (chomp (line ++ ending.carriage)) = parseLine (chomp (line ++ ending.carriage) ++ tail) :=
      (parseLine_append fun c hc => isWhitespace_return (htail c hc)).symm
    _ = parseLine (line ++ ending.carriage) := by rw [← heq]
    _ = parseLine line := parseLine_append hcarriage

/-- The prefix holds no equals sign, and a key no blank. -/
theorem dropFirst?_key {key rest : Text} (hkey : ∀ c ∈ key, isKeyChar c = true) :
    dropFirst? "export ".toList (key ++ '=' :: rest) = none := by
  refine if_neg fun hprefix => ?_
  obtain ⟨tail, heq⟩ := List.isPrefixOf_iff_prefix.mp hprefix
  have hblank : ' ' ∉ key := by
    intro h
    exact absurd (hkey _ h) (by decide)
  rcases List.append_eq_append_iff.mp heq with ⟨mid, hmid, -⟩ | ⟨mid, hmid, hrest⟩
  · refine hblank ?_
    rw [hmid]
    exact List.mem_append_left _ (by decide)
  · cases mid with
    | nil =>
        rw [List.append_nil] at hmid
        exact hblank (hmid ▸ by decide)
    | cons c mid =>
        obtain ⟨rfl, -⟩ := List.cons.inj hrest
        have hmem : '=' ∈ "export ".toList := by
          rw [hmid]
          simp
        exact absurd hmem (by decide)

theorem Blanks.isWhitespace (blanks : Blanks) : ∀ c ∈ blanks.val, isWhitespace c = true :=
  fun c hc => (blanks.property c hc).1

theorem Blanks.newline_free (blanks : Blanks) : '\n' ∉ blanks.val :=
  fun h => (blanks.property _ h).2 rfl

theorem Quote.not_blank (quote : Quote) : Gavel.isWhitespace quote.char = false ∧ quote.char ≠ ' ' := by
  cases quote <;> decide

namespace Assignment

variable (a : Assignment)

theorem trim_key : trimMatches isWhitespace a.key = a.key := by
  refine trimMatches_self (fun c hc => ?_) fun c hc => ?_
  · exact (isWhitespace_of_keyChar (a.key_chars c (List.mem_of_mem_head? hc))).1
  · exact (isWhitespace_of_keyChar (a.key_chars c (List.mem_of_getLast? hc))).1

/-- The value as it is read: from the opening quote to the last that is no blank. -/
def rawValue : Text := (a.quoted ++ a.after).rdropWhile isWhitespace

theorem rawValue_eq : ∃ rest, a.rawValue = a.quote.char :: rest := by
  refine ⟨(a.value ++ [a.quote.char] ++ a.after).rdropWhile isWhitespace, ?_⟩
  exact rdropWhile_cons a.quote.not_blank.1

theorem trim_rawValue : trimMatches isWhitespace a.rawValue = a.rawValue := by
  obtain ⟨rest, hrest⟩ := a.rawValue_eq
  rw [hrest, trimMatches_cons a.quote.not_blank.1, ← hrest]
  exact List.rdropWhile_idempotent _ _

theorem key_start (rest : Text) : (a.key ++ '=' :: rest).dropWhile isWhitespace = a.key ++ '=' :: rest := by
  refine dropWhile_self fun c hc => ?_
  rw [List.head?_append] at hc
  cases hkey : a.key.head? with
  | none =>
      rw [hkey] at hc
      obtain rfl := Option.some.inj hc
      rfl
  | some d =>
      rw [hkey] at hc
      obtain rfl := Option.some.inj hc
      exact (isWhitespace_of_keyChar (a.key_chars d (List.mem_of_mem_head? hkey))).1

theorem exportText_head {c : Char} (h : a.exportText.head? = some c) : c = 'e' := by
  unfold exportText at h
  split at h
  · exact (Option.some.inj h).symm
  · cases h

theorem trim_text :
    trimMatches isWhitespace a.text = a.exportText ++ (a.key ++ '=' :: a.rawValue) := by
  have hstart : (a.exportText ++ (a.key ++ '=' :: (a.quoted ++ a.after))).dropWhile isWhitespace =
      a.exportText ++ (a.key ++ '=' :: (a.quoted ++ a.after)) := by
    cases hexport : a.exportText with
    | nil => exact a.key_start _
    | cons c rest =>
        obtain rfl := a.exportText_head (by rw [hexport]; rfl)
        rfl
  have hend : (a.exportText ++ (a.key ++ '=' :: (a.quoted ++ a.after))).rdropWhile isWhitespace =
      a.exportText ++ (a.key ++ '=' :: a.rawValue) := by
    rw [← List.append_assoc, rdropWhile_append (c := '=') List.mem_cons_self rfl, rdropWhile_cons rfl,
      List.append_assoc]
    rfl
  rw [text, trimMatches_append_left a.lead.isWhitespace]
  rw [trimMatches, hstart]
  exact hend

theorem drop_export :
    ((dropFirst? "export ".toList (a.exportText ++ (a.key ++ '=' :: a.rawValue))).getD
      (a.exportText ++ (a.key ++ '=' :: a.rawValue))).dropWhile isWhitespace = a.key ++ '=' :: a.rawValue := by
  cases hexported : a.exported with
  | none =>
      have hnone : a.exportText = [] := by rw [exportText, hexported]
      rw [hnone, List.nil_append, dropFirst?_key a.key_chars, Option.getD_none, a.key_start]
  | some blanks =>
      have hsome : a.exportText = "export ".toList ++ blanks.val := by rw [exportText, hexported]
      rw [hsome, List.append_assoc, dropFirst?_append, Option.getD_some,
        List.dropWhile_append_of_pos (Blanks.isWhitespace blanks), a.key_start]

theorem parseLine_text : parseLine a.text =
    if a.key = [] then none else some ⟨a.key, cleanValue a.rawValue⟩ := by
  have hequals : '=' ∉ a.key := fun h => (isWhitespace_of_keyChar (a.key_chars _ h)).2 rfl
  have hall : a.key.all isKeyChar = true := List.all_eq_true.mpr a.key_chars
  have hkept : ¬ ((a.exportText ++ (a.key ++ '=' :: a.rawValue)).isEmpty = true ∨
      (a.exportText ++ (a.key ++ '=' :: a.rawValue)).head? = some '#') := by
    cases hexport : a.exportText with
    | cons c rest =>
        obtain rfl := a.exportText_head (by rw [hexport]; rfl)
        simp
    | nil =>
        cases hkey : a.key with
        | nil => simp
        | cons c rest =>
            have hc : isKeyChar c = true := a.key_chars c (hkey ▸ List.mem_cons_self)
            have hne : c ≠ '#' := by
              rintro rfl
              exact absurd hc (by decide)
            simp [hne]
  rw [parseLine_eq, a.trim_text, parseTrimmed, if_neg hkept]
  simp only [a.drop_export, splitOnce_append hequals, a.trim_key, a.trim_rawValue, hall]
  cases hkey : a.key with
  | nil => rfl
  | cons c rest => rfl

theorem rawValue_of_none (h : a.comment = none) : a.rawValue = a.quoted := by
  rw [rawValue, after, h, rdropWhile_append_right a.tail.isWhitespace, quoted,
    List.rdropWhile_concat_neg]
  simp [a.quote.not_blank.1]

theorem cleanValue_quoted : cleanValue a.quoted = a.value := by
  have hlast : a.quoted.getLast? = some a.quote.char := List.getLast?_concat
  have hhead : a.quoted.head? = some a.quote.char := rfl
  have hlength : 2 ≤ a.quoted.length := by simp [quoted]
  have hquoted : (['"', '\''].find? fun quote =>
      2 ≤ a.quoted.length ∧ a.quoted.head? = some quote ∧ a.quoted.getLast? = some quote).isSome = true := by
    refine List.find?_isSome.mpr ⟨a.quote.char, ?_, ?_⟩
    · cases a.quote <;> decide
    · exact decide_eq_true ⟨hlength, hhead, hlast⟩
  rw [cleanValue, if_pos hquoted]
  simp [quoted]

/-- With a comment behind it the raw value ends in no quote. -/
theorem last_rawValue {comment : TrailingComment} (h : a.comment = some comment) :
    ∃ c, a.rawValue.getLast? = some c ∧ c ≠ '"' ∧ c ≠ '\'' := by
  have hraw : a.rawValue =
      a.quoted ++ (a.tail.val ++ comment.before.val) ++ '#' :: comment.text.rdropWhile isWhitespace := by
    rw [rawValue, after, h, ← List.append_assoc, rdropWhile_append (c := '#') List.mem_cons_self rfl,
      rdropWhile_cons rfl]
  rw [hraw, List.getLast?_append_of_ne_nil _ (List.cons_ne_nil _ _)]
  refine ⟨_, List.getLast?_eq_some_getLast (List.cons_ne_nil _ _), ?_⟩
  rcases List.mem_cons.mp (List.getLast_mem (List.cons_ne_nil '#' (comment.text.rdropWhile isWhitespace)))
    with heq | hmem
  · rw [heq]
    decide
  · have hplain := comment.plain _ ((List.rdropWhile_prefix _ _).subset hmem)
    exact ⟨hplain.1, hplain.2.1⟩

/-- A text that begins with a quote and ends in none keeps the quote. -/
theorem cleanValue_unquoted {quote : Quote} {rest : Text} {c : Char}
    (hlast : (quote.char :: rest).getLast? = some c) (hc : c ≠ '"' ∧ c ≠ '\'') :
    (cleanValue (quote.char :: rest)).head? = some quote.char := by
  have hunquoted : ¬ (['"', '\''].find? fun quote' => 2 ≤ (quote.char :: rest).length ∧
      (quote.char :: rest).head? = some quote' ∧ (quote.char :: rest).getLast? = some quote').isSome = true := by
    intro hsome
    obtain ⟨quote', hmem, htrue⟩ := List.find?_isSome.mp hsome
    have heq := (of_decide_eq_true htrue).2.2
    rw [hlast, Option.some.injEq] at heq
    subst heq
    simp [hc] at hmem
  have hsplit : splitAtText " #".toList (quote.char :: rest) =
      (splitAtText " #".toList rest).map fun r => (quote.char :: r.1, r.2) := by
    refine splitAtText_cons_of_ne (fun d hd => ?_) (by decide)
    obtain rfl : ' ' = d := Option.some.inj hd
    exact quote.not_blank.2.symm
  rw [cleanValue, if_neg hunquoted, hsplit]
  cases splitAtText " #".toList rest with
  | none => rfl
  | some r =>
      rw [Option.map_some]
      simp only
      rw [rdropWhile_cons quote.not_blank.1]
      rfl

theorem cleanValue_iff : cleanValue a.rawValue = a.value ↔ a.comment = none := by
  constructor
  · intro hvalue
    cases hcomment : a.comment with
    | none => rfl
    | some comment =>
        obtain ⟨c, hlast, hc⟩ := a.last_rawValue hcomment
        obtain ⟨rest, hrest⟩ := a.rawValue_eq
        rw [hrest] at hvalue hlast
        have hhead := cleanValue_unquoted hlast hc
        rw [hvalue] at hhead
        exact absurd (List.mem_of_mem_head? hhead) a.value_quote
  · intro hnone
    rw [a.rawValue_of_none hnone, a.cleanValue_quoted]

theorem parseLine_eq_iff : parseLine a.text = some a.entry ↔ a.key ≠ [] ∧ a.comment = none := by
  rw [parseLine_text, ← cleanValue_iff]
  by_cases hkey : a.key = []
  · simp [hkey]
  · simp [hkey, entry]

theorem newline_free : '\n' ∉ a.text := by
  have hkey : '\n' ∉ a.key := fun h => absurd (a.key_chars _ h) (by decide)
  have hquote : '\n' ≠ a.quote.char := by
    cases a.quote <;> decide
  have hexport : '\n' ∉ a.exportText := by
    unfold exportText
    split
    · rw [List.mem_append]
      exact not_or.mpr ⟨by decide, Blanks.newline_free _⟩
    · exact List.not_mem_nil
  have hafter : '\n' ∉ a.after := by
    unfold after
    split
    · rename_i comment _
      have htext : '\n' ∉ comment.text := fun h => (comment.plain _ h).2.2 rfl
      simp [Blanks.newline_free, htext]
    · exact Blanks.newline_free _
  simp [text, quoted, Blanks.newline_free, hexport, hkey, hquote, hafter, a.value_line]

end Assignment

/-! ## The file -/

theorem Line.newline_free (line : Line) : '\n' ∉ line.text := by
  cases line with
  | assignment a => exact a.newline_free
  | blank blanks => exact blanks.newline_free
  | comment lead text => simp [Line.text, lead.newline_free, text.property]

theorem parse_render_cons (line : Line) (ending : Ending) (file : List (Line × Ending)) :
    parse (render ((line, ending) :: file)) = (parseLine line.text).toList ++ parse (render file) := by
  have hfree : '\n' ∉ line.text ++ ending.carriage := by
    have hcarriage : '\n' ∉ ending.carriage := by
      cases ending <;> decide
    exact List.mem_append.not.mpr (not_or.mpr ⟨line.newline_free, hcarriage⟩)
  have hrender : render ((line, ending) :: file) =
      (line.text ++ ending.carriage) ++ '\n' :: render file := by
    simp [render, Ending.text]
  rw [parse, hrender, lines_append hfree, List.filterMap_cons, parseLine_chomp, parse]
  cases parseLine line.text <;> rfl

theorem parseLine_of_none {line : Line} (h : line.assignment? = none) : parseLine line.text = none := by
  cases line with
  | assignment a => cases h
  | blank blanks =>
      have htrim : trimMatches isWhitespace blanks.val = [] := by
        rw [← List.append_nil blanks.val, trimMatches_append_left blanks.isWhitespace]
        rfl
      rw [parseLine_eq, Line.text, htrim]
      rfl
  | comment lead text =>
      rw [parseLine_eq, Line.text, trimMatches_append_left lead.isWhitespace, trimMatches_cons rfl,
        rdropWhile_cons rfl, parseTrimmed, if_pos (.inr rfl)]

theorem parse_render (file : List (Line × Ending)) :
    parse (render file) = (assignments file).filterMap fun a => parseLine a.text := by
  induction file with
  | nil => rfl
  | cons line file ih =>
      obtain ⟨line, ending⟩ := line
      rw [parse_render_cons, ih, assignments, assignments, List.filterMap_cons]
      cases hline : line.assignment? with
      | none => rw [parseLine_of_none hline]; rfl
      | some a =>
          obtain rfl : line = .assignment a := by
            cases line <;> cases hline
            rfl
          rw [List.filterMap_cons, Line.text]
          cases parseLine a.text <;> rfl

/-- A file is read back exactly when every key has a character and no assignment has a comment behind it. -/
theorem parse_render_iff (file : List (Line × Ending)) :
    parse (render file) = (assignments file).map Assignment.entry ↔
      ∀ a ∈ assignments file, a.key ≠ [] ∧ a.comment = none := by
  rw [parse_render, List.filterMap_eq_map_iff_forall_eq_some]
  simp only [Assignment.parseLine_eq_iff]

/-- `export A='v #1'` after a comment line, with blanks around it. -/
theorem export_read_back :
    let a : Assignment :=
      { key := ['A']
        value := ['v', ' ', '#', '1']
        quote := .single
        exported := some ⟨[' '], by simp [isWhitespace]⟩
        lead := ⟨['\t'], by simp [isWhitespace]⟩
        tail := ⟨[' '], by simp [isWhitespace]⟩
        comment := none
        key_chars := by simp; decide
        value_line := by decide
        value_quote := by decide }
    let note : Line := .comment ⟨[], by simp⟩ ⟨['n'], by decide⟩
    parse (render [(note, .lf), (.assignment a, .crlf)]) = [a.entry] :=
  (parse_render_iff [_, _]).mpr (by simp [assignments, Line.assignment?])

/-- `A="v" # note` is read with its quotes. -/
def commented : Assignment :=
  { key := ['A']
    value := ['v']
    quote := .double
    exported := none
    lead := ⟨[], by simp⟩
    tail := ⟨[], by simp⟩
    comment := some ⟨⟨[' '], by simp [isWhitespace]⟩, [' ', 'n', 'o', 't', 'e'], by simp, by simp⟩
    key_chars := by simp; decide
    value_line := by simp
    value_quote := by decide }

theorem commented_keeps_quotes :
    parse (render [(.assignment commented, .lf)]) = [⟨['A'], ['"', 'v', '"']⟩] ∧
    ¬ ∀ file, parse (render file) = (assignments file).map Assignment.entry := by
  have hread : parse (render [(.assignment commented, .lf)]) = [⟨['A'], ['"', 'v', '"']⟩] := by
    decide
  refine ⟨hread, fun hall => ?_⟩
  have hsame := hall [(.assignment commented, .lf)]
  rw [hread] at hsame
  exact absurd hsame (by decide)

end Gavel.Server.EnvFile

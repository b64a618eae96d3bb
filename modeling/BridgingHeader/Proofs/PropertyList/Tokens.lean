import Mathlib.Data.List.TakeWhile
import BridgingHeader.PropertyList.Reader
import BridgingHeader.Proofs.Outcomes
import BridgingHeader.Proofs.PropertyList.Grammar

/-!
# Tokens as the reader sees them

Trivia are skipped as far as they go, since no token starts like trivia, and a string is read
exactly as the grammar derives it.
-/

namespace BridgingHeader.PropertyList

open Text (isBlank)

/-! ### Trivia -/

/-- A longer body stays free of a closing mark unless its first two characters are one. -/
theorem closing_infix_cons_iff {c : Char} {body : List Char} :
    ['*', '/'] <:+: c :: body ↔
      (c = '*' ∧ ∃ tail, body = '/' :: tail) ∨ ['*', '/'] <:+: body := by
  rw [List.infix_cons_iff, List.cons_prefix_cons]
  apply or_congr_left
  cases body with
  | nil => simp
  | cons d tail => simp [eq_comm]

theorem skipTrivia_blockComment {body : List Char} (h : ¬ ['*', '/'] <:+: body)
    (text : List Char) :
    skipTrivia .blockComment (body ++ '*' :: '/' :: text) = skipTrivia .outside text := by
  induction body with
  | nil => rfl
  | cons c body ih =>
      rw [closing_infix_cons_iff, not_or] at h
      obtain ⟨hfirst, hbody⟩ := h
      have hopen : ∀ tail, c = '*' → body ++ '*' :: '/' :: text = '/' :: tail → False := by
        intro tail hc he
        cases body with
        | nil => cases he
        | cons d body =>
            injection he with hd
            exact hfirst ⟨hc, body, by rw [hd]⟩
      rw [List.cons_append, skipTrivia.eq_6 _ _ hopen]
      exact ih hbody

theorem skipTrivia_lineComment {body text : List Char} (h : '\n' ∉ body)
    (hend : ∀ c ∈ text.head?, c = '\n') :
    skipTrivia .lineComment (body ++ text) = skipTrivia .outside text := by
  induction body with
  | nil =>
      cases text with
      | nil => rfl
      | cons c text =>
          obtain rfl : c = '\n' := hend c rfl
          rfl
  | cons c body ih =>
      rw [List.mem_cons, not_or] at h
      obtain ⟨hc, hbody⟩ := h
      rw [List.cons_append, skipTrivia.eq_9 _ _ fun e => hc e.symm]
      exact ih hbody

theorem skipTrivia_blank {c : Char} (hc : isBlank c = true) (text : List Char) :
    skipTrivia .outside (c :: text) = skipTrivia .outside text := by
  have hslash : c ≠ '/' := by
    rintro rfl
    revert hc
    decide
  rw [skipTrivia.eq_3 _ _ (fun _ e => absurd e hslash) (fun _ e => absurd e hslash), if_pos hc]

/-- Trivia at the front of a text do not change what is left after all trivia. -/
theorem skipTrivia_of_trivia {text rest : List Char} (h : Trivia text rest) :
    skipTrivia .outside text = skipTrivia .outside rest := by
  induction h with
  | done => rfl
  | blank hc _ ih => rw [skipTrivia_blank hc, ih]
  | blockComment first _ ih =>
      rw [← ih]
      exact skipTrivia_blockComment first _
  | lineComment inside ended _ ih =>
      rw [← ih]
      exact skipTrivia_lineComment inside ended

/-- Trivia as they are seen from a point that may lie inside a comment. -/
def TriviaFrom : Surrounding → List Char → List Char → Prop
  | .outside, text, rest => Trivia text rest
  | .blockComment, text, rest => ∃ body after, text = body ++ '*' :: '/' :: after ∧
      ¬ ['*', '/'] <:+: body ∧ Trivia after rest
  | .lineComment, text, rest => ∃ body after, text = body ++ after ∧ '\n' ∉ body ∧
      (∀ c ∈ after.head?, c = '\n') ∧ Trivia after rest

theorem triviaFrom_of_skipTrivia {surrounding : Surrounding} {text rest : List Char}
    (h : skipTrivia surrounding text = .ok rest) : TriviaFrom surrounding text rest := by
  fun_induction skipTrivia surrounding text with
  | case1 text ih =>
      obtain ⟨body, after, rfl, hbody, hafter⟩ := ih h
      exact .blockComment hbody hafter
  | case2 text ih =>
      obtain ⟨body, after, rfl, hbody, hend, hafter⟩ := ih h
      exact .lineComment hbody hend hafter
  | case3 c text _ _ hc ih => exact .blank hc (ih h)
  | case4 c text _ _ _ =>
      cases h
      exact .done
  | case5 =>
      cases h
      exact .done
  | case6 text ih => exact ⟨[], text, rfl, by simp, ih h⟩
  | case7 c text hopen ih =>
      obtain ⟨body, after, rfl, hbody, hafter⟩ := ih h
      refine ⟨c :: body, after, rfl, ?_, hafter⟩
      rw [closing_infix_cons_iff]
      rintro (⟨hc, tail, rfl⟩ | hinner)
      · exact hopen _ hc rfl
      · exact hbody hinner
  | case8 => cases h
  | case9 text ih =>
      refine ⟨[], '\n' :: text, rfl, by simp, ?_, .blank (by decide) (ih h)⟩
      intro c hc
      simpa using hc.symm
  | case10 c text hc ih =>
      obtain ⟨body, after, rfl, hbody, hend, hafter⟩ := ih h
      refine ⟨c :: body, after, rfl, ?_, hend, hafter⟩
      rw [List.mem_cons, not_or]
      exact ⟨fun e => hc e.symm, hbody⟩
  | case11 =>
      cases h
      exact ⟨[], [], rfl, by simp, by simp, .done⟩

theorem trivia_of_skipTrivia {text rest : List Char} (h : skipTrivia .outside text = .ok rest) :
    Trivia text rest :=
  triviaFrom_of_skipTrivia h

/-- A text starts with a token if its first character neither is blank nor starts a comment. -/
def StartsToken : List Char → Prop
  | [] => False
  | c :: rest => isBlank c = false ∧ ¬ (c = '/' ∧ ∃ d ∈ rest.head?, d = '*' ∨ d = '/')

theorem skipTrivia_of_startsToken {text : List Char} (h : StartsToken text) :
    skipTrivia .outside text = .ok text := by
  cases text with
  | nil => cases h
  | cons c rest =>
      obtain ⟨hblank, hcomment⟩ := h
      have hblock : ∀ tail, c = '/' → rest = '*' :: tail → False := by
        rintro tail rfl rfl
        exact hcomment ⟨rfl, '*', rfl, Or.inl rfl⟩
      have hline : ∀ tail, c = '/' → rest = '/' :: tail → False := by
        rintro tail rfl rfl
        exact hcomment ⟨rfl, '/', rfl, Or.inr rfl⟩
      rw [skipTrivia.eq_3 _ _ hblock hline, if_neg (by simp [hblank])]

/-- What is left after trivia is nothing or starts with a token. -/
theorem startsToken_of_skipTrivia {surrounding : Surrounding} {text rest : List Char}
    (h : skipTrivia surrounding text = .ok rest) : rest = [] ∨ StartsToken rest := by
  fun_induction skipTrivia surrounding text with
  | case1 _ ih => exact ih h
  | case2 _ ih => exact ih h
  | case3 _ _ _ _ _ ih => exact ih h
  | case4 c text hblock hline hc =>
      cases h
      refine Or.inr ⟨Bool.eq_false_iff.mpr hc, ?_⟩
      rintro ⟨hslash, d, hd, hcomment⟩
      obtain ⟨tail, htail⟩ := List.head?_eq_some_iff.mp hd
      rcases hcomment with rfl | rfl
      · exact hblock tail hslash htail
      · exact hline tail hslash htail
  | case5 =>
      cases h
      exact Or.inl rfl
  | case6 _ ih => exact ih h
  | case7 _ _ _ ih => exact ih h
  | case8 => cases h
  | case9 _ ih => exact ih h
  | case10 _ _ _ ih => exact ih h
  | case11 =>
      cases h
      exact Or.inl rfl

/-- Trivia in front of a token are skipped, and nothing else is. -/
theorem skipTrivia_to_token {text rest : List Char} (h : Trivia text rest)
    (hrest : StartsToken rest) : skipTrivia .outside text = .ok rest := by
  rw [skipTrivia_of_trivia h, skipTrivia_of_startsToken hrest]

/-- The punctuation marks. -/
def marks : List Char := ['{', '}', '(', ')', '=', ';', ',']

theorem startsToken_of_mark {mark : Char} (h : mark ∈ marks) (rest : List Char) :
    StartsToken (mark :: rest) := by
  have hmarks : ∀ c ∈ marks, isBlank c = false ∧ c ≠ '/' := by
    simp only [marks, List.forall_mem_cons, List.not_mem_nil, false_imp_iff, forall_const]
    decide
  exact ⟨(hmarks mark h).1, fun e => (hmarks mark h).2 e.1⟩

theorem skipTrivia_to_mark {mark : Char} {text rest : List Char} (h : Trivia text (mark :: rest))
    (hmark : mark ∈ marks) : skipTrivia .outside text = .ok (mark :: rest) :=
  skipTrivia_to_token h (startsToken_of_mark hmark rest)

theorem expectMark_to_mark {mark : Char} {text rest : List Char} (h : Trivia text (mark :: rest))
    (hmark : mark ∈ marks) : expectMark mark text = .ok rest := by
  simp [expectMark, skipTrivia_to_mark h hmark, bind, Except.bind, pure, Except.pure]

theorem trivia_of_expectMark {mark : Char} {text rest : List Char}
    (h : expectMark mark text = .ok rest) : Trivia text (mark :: rest) := by
  obtain ⟨left, hskip, hmatch⟩ := bind_eq_ok_iff.mp h
  cases left with
  | nil => cases hmatch
  | cons c left =>
      by_cases hc : c = mark
      · simp only [hc, if_true] at hmatch
        cases hmatch
        exact hc ▸ trivia_of_skipTrivia hskip
      · simp only [hc, if_false] at hmatch
        cases hmatch

/-! ### Strings -/

theorem isBare_iff (c : Char) : isBare c = true ↔ BareCharacter c := by
  have halphanum : c.isAlphanum = (decide ('A' ≤ c ∧ c ≤ 'Z') ||
      (decide ('a' ≤ c) && decide (c ≤ 'z')) || (decide ('0' ≤ c) && decide (c ≤ '9'))) := rfl
  simp only [isBare, BareCharacter, halphanum, Bool.or_eq_true, Bool.and_eq_true,
    decide_eq_true_eq, List.mem_cons, List.not_mem_nil, or_false, or_assoc]

theorem hexDigit?_eq_some_iff (c : Char) (n : Nat) : hexDigit? c = some n ↔ HexDigit c n := by
  have h0 : '0'.toNat = 48 := rfl
  have h9 : '9'.toNat = 57 := rfl
  have ha : 'a'.toNat = 97 := rfl
  have hf : 'f'.toNat = 102 := rfl
  have hA : 'A'.toNat = 65 := rfl
  have hF : 'F'.toNat = 70 := rfl
  simp only [hexDigit?, Char.le_def, UInt32.le_iff_toNat_le, Char.toNat_val]
  constructor
  · intro h
    split at h
    · cases h
      exact .decimal (by omega) (by omega)
    · split at h
      · cases h
        rw [Nat.add_comm]
        exact .lower (by omega) (by omega)
      · split at h
        · cases h
          rw [Nat.add_comm]
          exact .upper (by omega) (by omega)
        · cases h
  · intro h
    cases h with
    | decimal hn hc =>
        rw [if_pos (by omega)]
        congr 1
        omega
    | lower hn hc =>
        rw [if_neg (by omega), if_pos (by omega)]
        congr 1
        omega
    | upper hn hc =>
        rw [if_neg (by omega), if_neg (by omega), if_pos (by omega)]
        congr 1
        omega

theorem character?_eq_some_iff (code : Nat) (c : Char) :
    character? code = some c ↔ c.toNat = code := by
  unfold character?
  by_cases hvalid : code.isValidChar
  · rw [dif_pos hvalid]
    constructor
    · rintro ⟨rfl⟩
      rfl
    · rintro rfl
      rfl
  · rw [dif_neg hvalid]
    constructor
    · intro h
      cases h
    · rintro rfl
      exact absurd c.valid hvalid

theorem codePoint?_eq_some_iff (i j k l c : Char) :
    codePoint? i j k l = some c ↔ ∃ m n o p, HexDigit i m ∧ HexDigit j n ∧ HexDigit k o ∧
      HexDigit l p ∧ c.toNat = m * 0x1000 + n * 0x100 + o * 0x10 + p := by
  have hcode : ∀ m n o p : Nat,
      ((m * 16 + n) * 16 + o) * 16 + p = m * 0x1000 + n * 0x100 + o * 0x10 + p := by
    intro m n o p
    omega
  simp only [codePoint?, bind, Option.bind_eq_some_iff, hexDigit?_eq_some_iff,
    character?_eq_some_iff, hcode]
  constructor
  · rintro ⟨m, hm, n, hn, o, ho, p, hp, hc⟩
    exact ⟨m, n, o, p, hm, hn, ho, hp, hc⟩
  · rintro ⟨m, n, o, p, hm, hn, ho, hp, hc⟩
    exact ⟨m, hm, n, hn, o, ho, p, hp, hc⟩

theorem unescape_of_mem {l c : Char} (h : (l, c) ∈ letterEscapes) : unescape l = c := by
  simp only [letterEscapes, List.mem_cons, Prod.mk.injEq, List.not_mem_nil, or_false] at h
  rcases h with h | h | h | h | h | h | h <;> (obtain ⟨rfl, rfl⟩ := h; rfl)

theorem unescape_of_not_mem {c : Char} (h : c ∉ letterEscapes.map Prod.fst) : unescape c = c := by
  simp only [letterEscapes, List.map_cons, List.map_nil, List.mem_cons, List.not_mem_nil, or_false,
    not_or] at h
  obtain ⟨hn, ht, hr, ha, hb, hf, hv⟩ := h
  exact unescape.eq_8 c hn ht hr ha hb hf hv

/-- A backslash and a character other than `U` are a written form of what they stand for. -/
theorem quotedCharacter_unescape (quote : Char) {c : Char} (hU : c ≠ 'U') :
    QuotedCharacter quote ['\\', c] (unescape c) := by
  by_cases h : c ∈ letterEscapes.map Prod.fst
  · obtain ⟨⟨l, d⟩, hmem, rfl⟩ := List.mem_map.mp h
    rw [unescape_of_mem hmem]
    exact .letter hmem
  · rw [unescape_of_not_mem h]
    exact .itself hU h

theorem map_eq_ok_iff {ε α β : Type} {first : Except ε α} {f : α → β} {result : β} :
    first.map f = .ok result ↔ ∃ a, first = .ok a ∧ f a = result := by
  cases first <;> simp [Except.map]

theorem quotedText_of_readQuoted {quote : Char} {text contents rest : List Char}
    (h : readQuoted quote text = .ok (contents, rest)) : QuotedText quote text contents rest := by
  fun_induction readQuoted quote text generalizing contents with
  | case1 => cases h
  | case2 text =>
      cases h
      exact .close
  | case3 => cases h
  | case4 i j k l after c hc _ ih =>
      obtain ⟨⟨tail, left⟩, htail, he⟩ := map_eq_ok_iff.mp h
      cases he
      obtain ⟨m, n, o, p, hi, hj, hk, hl, hc⟩ := (codePoint?_eq_some_iff i j k l c).mp hc
      exact .character (.codePoint hi hj hk hl hc) (ih htail)
  | case5 => cases h
  | case6 => cases h
  | case7 c after _ hU _ ih =>
      obtain ⟨⟨tail, left⟩, htail, he⟩ := map_eq_ok_iff.mp h
      cases he
      exact .character (quotedCharacter_unescape quote hU) (ih htail)
  | case8 c text hquote hbackslash ih =>
      obtain ⟨⟨tail, left⟩, htail, he⟩ := map_eq_ok_iff.mp h
      cases he
      exact .character (.plain hquote hbackslash) (ih htail)

/-- A backslash and a character other than `U` are taken for what they stand for. -/
theorem readQuoted_escape {quote c : Char} (hq : quote ≠ '\\') (hU : c ≠ 'U') (text : List Char) :
    readQuoted quote ('\\' :: c :: text) =
      (readQuoted quote text).map fun (contents, left) => (unescape c :: contents, left) := by
  rw [readQuoted.eq_5 _ _ _ _ (fun _ _ _ _ _ e => absurd e hU) hU, if_neg (Ne.symm hq), if_pos rfl]

/-- The reader takes a written form for the character it stands for and goes on behind it. -/
theorem readQuoted_character {quote : Char} (hq : quote ≠ '\\') {form : List Char} {c : Char}
    (h : QuotedCharacter quote form c) (text : List Char) :
    readQuoted quote (form ++ text) =
      (readQuoted quote text).map fun (contents, left) => (c :: contents, left) := by
  cases h with
  | plain hquote hbackslash =>
      rw [List.singleton_append, readQuoted.eq_def]
      simp only [if_neg hquote, if_neg hbackslash]
  | @letter l c hl =>
      have hU : l ≠ 'U' := by
        rintro rfl
        simp [letterEscapes] at hl
      rw [← unescape_of_mem hl]
      exact readQuoted_escape hq hU text
  | itself hU hc =>
      have h := readQuoted_escape hq hU text
      rwa [unescape_of_not_mem hc] at h
  | @codePoint i j k l _ m n o p hi hj hk hl hc =>
      have hpoint := (codePoint?_eq_some_iff i j k l c).mpr ⟨m, n, o, p, hi, hj, hk, hl, hc⟩
      simp [readQuoted, Ne.symm hq, hpoint]

theorem readQuoted_of_quotedText {quote : Char} (hq : quote ≠ '\\') {text contents rest : List Char}
    (h : QuotedText quote text contents rest) : readQuoted quote text = .ok (contents, rest) := by
  induction h with
  | @close rest =>
      rw [readQuoted.eq_def]
      simp
  | character head _ ih =>
      rw [readQuoted_character hq head, ih]
      rfl

theorem not_isBlank_of_bareCharacter {c : Char} (h : BareCharacter c) : isBlank c = false := by
  have hA : 'A'.toNat = 65 := rfl
  have hZ : 'Z'.toNat = 90 := rfl
  have ha : 'a'.toNat = 97 := rfl
  have hz : 'z'.toNat = 122 := rfl
  have h0 : '0'.toNat = 48 := rfl
  have h9 : '9'.toNat = 57 := rfl
  have hblank : isBlank c = true → c.toNat ≤ 32 ∨ 0x85 ≤ c.toNat := by
    simp only [isBlank, Text.blankRanges, List.any_cons, List.any_nil, Bool.or_false,
      Bool.or_eq_true, Bool.and_eq_true, decide_eq_true_eq]
    omega
  rw [Bool.eq_false_iff]
  intro hc
  have hcode := hblank hc
  simp only [BareCharacter, Char.le_def, UInt32.le_iff_toNat_le, Char.toNat_val, List.mem_cons,
    List.not_mem_nil, or_false] at h
  rcases h with h | h | h | rfl | rfl | rfl | rfl | rfl | rfl | rfl
  · omega
  · omega
  · omega
  all_goals
    revert hcode
    decide

theorem startsToken_of_stringText {text rest : List Char} {contents : String}
    (h : StringText text contents rest) : StartsToken text := by
  cases h with
  | quoted hquote body =>
      rcases hquote with rfl | rfl
      · exact ⟨by decide, fun e => absurd e.1 (by decide)⟩
      · exact ⟨by decide, fun e => absurd e.1 (by decide)⟩
  | @bare run _ hne hrun maximal line block =>
      cases run with
      | nil => exact absurd rfl hne
      | cons c run =>
          refine ⟨not_isBlank_of_bareCharacter (hrun c List.mem_cons_self), ?_⟩
          rintro ⟨rfl, d, hd, hcomment⟩
          obtain ⟨tail, htail⟩ := List.head?_eq_some_iff.mp hd
          rcases hcomment with rfl | rfl
          · exact block ⟨tail, congrArg (List.cons '/') htail.symm⟩
          · exact line ⟨tail, congrArg (List.cons '/') htail.symm⟩

/-- The bare characters at the front of a token are a bare string. -/
theorem stringText_takeWhile {c : Char} {text : List Char} (htoken : StartsToken (c :: text))
    (hc : isBare c = true) :
    StringText (c :: text) (String.ofList ((c :: text).takeWhile isBare))
      ((c :: text).dropWhile isBare) := by
  have hcomment : ∀ d, d = '*' ∨ d = '/' → ¬ ['/', d] <+: c :: text := by
    rintro d hd ⟨tail, he⟩
    injection he with hslash he
    exact htoken.2 ⟨hslash.symm, d, by rw [← he]; rfl, hd⟩
  have hmaximal : ∀ d ∈ ((c :: text).dropWhile isBare).head?, ¬ BareCharacter d := by
    intro d hd
    have hstop := List.head?_dropWhile_not isBare (c :: text)
    rw [Option.mem_def.mp hd] at hstop
    rw [← isBare_iff, hstop]
    decide
  generalize hrun : (c :: text).takeWhile isBare = run
  generalize hrest : (c :: text).dropWhile isBare = rest at hmaximal
  have hsplit : c :: text = run ++ rest := by
    rw [← hrun, ← hrest, List.takeWhile_append_dropWhile]
  have hne : run ≠ [] := by
    rw [← hrun, List.takeWhile_cons_of_pos hc]
    simp
  have hall : ∀ d ∈ run, BareCharacter d := by
    intro d hd
    exact (isBare_iff d).mp (List.mem_takeWhile_imp (hrun ▸ hd))
  rw [hsplit] at hcomment ⊢
  exact .bare hne hall hmaximal (hcomment '/' (Or.inr rfl)) (hcomment '*' (Or.inl rfl))

theorem stringText_of_readString {text rest : List Char} {contents : String}
    (htoken : StartsToken text) (h : readString text = .ok (contents, rest)) :
    StringText text contents rest := by
  cases text with
  | nil => cases h
  | cons c text =>
      rw [readString] at h
      split at h
      · next hquote =>
          obtain ⟨⟨inner, left⟩, hinner, he⟩ := map_eq_ok_iff.mp h
          cases he
          exact .quoted hquote (quotedText_of_readQuoted hinner)
      · split at h
        · next hbare =>
            cases h
            exact stringText_takeWhile htoken hbare
        · cases h

/-- A run of bare characters in front of another character is read as a whole. -/
theorem readString_bare {run rest : List Char} (hne : run ≠ []) (hrun : ∀ c ∈ run, isBare c = true)
    (maximal : ∀ c ∈ rest.head?, ¬ isBare c = true) :
    readString (run ++ rest) = .ok (String.ofList run, rest) := by
  have hstop : rest.takeWhile isBare = [] ∧ rest.dropWhile isBare = rest := by
    cases rest with
    | nil => exact ⟨rfl, rfl⟩
    | cons d rest =>
        have hd : ¬ isBare d = true := maximal d rfl
        exact ⟨List.takeWhile_cons_of_neg hd, List.dropWhile_cons_of_neg hd⟩
  have htake : (run ++ rest).takeWhile isBare = run := by
    rw [List.takeWhile_append_of_pos hrun, hstop.1, List.append_nil]
  have hdrop : (run ++ rest).dropWhile isBare = rest := by
    rw [List.dropWhile_append_of_pos hrun, hstop.2]
  cases run with
  | nil => exact absurd rfl hne
  | cons c run =>
      have hc := hrun c List.mem_cons_self
      have hquote : ¬ (c = '"' ∨ c = '\'') := by
        rintro (rfl | rfl) <;> revert hc <;> decide
      rw [List.cons_append] at htake hdrop ⊢
      rw [readString, if_neg hquote, if_pos hc, htake, hdrop]

theorem readString_of_stringText {text rest : List Char} {contents : String}
    (h : StringText text contents rest) : readString text = .ok (contents, rest) := by
  cases h with
  | @quoted quote text inner _ hquote body =>
      have hq : quote ≠ '\\' := by
        rcases hquote with rfl | rfl <;> decide
      rw [readString, if_pos hquote, readQuoted_of_quotedText hq body]
      rfl
  | @bare run rest hne hrun maximal line block =>
      exact readString_bare hne (fun c hc => (isBare_iff c).mpr (hrun c hc)) fun c hc =>
        mt (isBare_iff c).mp (maximal c hc)

/-- A string starts with a quote or with a bare character. -/
theorem head_of_stringText {text rest : List Char} {contents : String}
    (h : StringText text contents rest) :
    ∃ c tail, text = c :: tail ∧ (c = '"' ∨ c = '\'' ∨ isBare c = true) := by
  cases h with
  | @quoted quote inner _ _ hquote _ => exact ⟨quote, inner, rfl, by tauto⟩
  | @bare run _ hne hrun _ _ _ =>
      cases run with
      | nil => exact absurd rfl hne
      | cons c run =>
          exact ⟨c, _, rfl, Or.inr (Or.inr ((isBare_iff c).mpr (hrun c List.mem_cons_self)))⟩

/-- No string starts with a punctuation mark. -/
theorem head_of_stringText_ne {text rest : List Char} {contents : String} {mark : Char}
    (h : StringText text contents rest) (hmark : mark ∈ marks) : text.head? ≠ some mark := by
  obtain ⟨c, tail, rfl, hc⟩ := head_of_stringText h
  intro he
  obtain rfl : c = mark := Option.some.inj he
  have hmarks : ∀ d ∈ marks, ¬ (d = '"' ∨ d = '\'' ∨ isBare d = true) := by
    simp only [marks, List.forall_mem_cons, List.not_mem_nil, false_imp_iff, forall_const]
    decide
  exact hmarks c hmark hc

end BridgingHeader.PropertyList

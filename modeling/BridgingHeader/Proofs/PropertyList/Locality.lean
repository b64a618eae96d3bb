import BridgingHeader.Proofs.PropertyList.Reading

/-!
# Readers look two characters ahead

A reader takes a piece from the front of a text. What it answers, and whether and why it stops, is
told by that piece and by the two characters behind it. This is carried along the reader: it holds
where two readers run one after the other, since two texts that agree behind a piece also agree in
front of it.
-/

namespace BridgingHeader.PropertyList

open Text (isBlank)

/-- The texts agree on two characters, or on all if one of them ends before. -/
def Agree (text other : List Char) : Prop := other.take 2 = text.take 2

theorem Agree.refl (text : List Char) : Agree text text := rfl

theorem Agree.append {text other : List Char} (h : Agree text other) (front : List Char) :
    Agree (front ++ text) (front ++ other) := by
  have hmin : min (2 - front.length) 2 = 2 - front.length := by omega
  rw [Agree, List.take_append, List.take_append, ← hmin, ← List.take_take, h, List.take_take]

theorem Agree.eq_nil {other : List Char} (h : Agree [] other) : other = [] := by
  simpa [Agree] using h

/-- Two texts that agree start with the same character, and the rests share one character more. -/
theorem Agree.cons {c : Char} {text other : List Char} (h : Agree (c :: text) other) :
    ∃ rest, other = c :: rest ∧ rest.head? = text.head? := by
  cases other with
  | nil => cases h
  | cons d rest =>
      rw [Agree, List.take_succ_cons, List.take_succ_cons] at h
      injection h with hc hrest
      refine ⟨rest, by rw [hc], ?_⟩
      simpa [List.take_one] using congrArg List.head? hrest

theorem Agree.head? {text other : List Char} (h : Agree text other) : other.head? = text.head? := by
  cases text with
  | nil => rw [h.eq_nil]
  | cons c text =>
      obtain ⟨rest, rfl, -⟩ := h.cons
      rfl

section LocalAt

variable {α β : Type}

/-- The text that a reader leaves, be it behind an answer or at a stop. -/
def left : Except Stop (α × List Char) → List Char
  | .ok (_, rest) => rest
  | .error stop => stop.rest

/-- The same answer or fault with another text left. -/
def leaving (rest : List Char) : Except Stop (α × List Char) → Except Stop (α × List Char)
  | .ok (a, _) => .ok (a, rest)
  | .error stop => .error ⟨stop.fault, rest⟩

/-- A reader takes a piece of a text, and it does the same with every text that starts with this
piece and agrees with what is left. -/
def LocalAt (reader : List Char → Except Stop (α × List Char)) (text : List Char) : Prop :=
  ∃ taken, text = taken ++ left (reader text) ∧
    ∀ rest, Agree (left (reader text)) rest → reader (taken ++ rest) = leaving rest (reader text)

variable {reader other : List Char → Except Stop (α × List Char)} {text : List Char}

/-- A stop behind a piece. -/
theorem localAt_error (front : List Char) (fault : Fault)
    (h : ∀ rest, Agree text rest → reader (front ++ rest) = .error ⟨fault, rest⟩) :
    LocalAt reader (front ++ text) := by
  refine ⟨front, ?_, ?_⟩
  · rw [h text (.refl text)]
    rfl
  · rw [h text (.refl text)]
    exact h

/-- An answer behind a piece. -/
theorem localAt_ok (front : List Char) (a : α)
    (h : ∀ rest, Agree text rest → reader (front ++ rest) = .ok (a, rest)) :
    LocalAt reader (front ++ text) := by
  refine ⟨front, ?_, ?_⟩
  · rw [h text (.refl text)]
    rfl
  · rw [h text (.refl text)]
    exact h

/-- A stop on the spot. -/
theorem localAt_stop (fault : Fault)
    (h : ∀ rest, Agree text rest → reader rest = .error ⟨fault, rest⟩) : LocalAt reader text :=
  localAt_error [] fault h

/-- An answer on the spot. -/
theorem localAt_stay (a : α) (h : ∀ rest, Agree text rest → reader rest = .ok (a, rest)) :
    LocalAt reader text :=
  localAt_ok [] a h

/-- At its end a text agrees with itself only. -/
theorem localAt_nil (h : left (reader []) = []) : LocalAt reader [] := by
  refine ⟨[], h.symm, fun rest hrest => ?_⟩
  rw [h] at hrest
  rw [hrest.eq_nil, List.nil_append]
  rcases hresult : reader [] with ⟨fault, rest⟩ | ⟨a, rest⟩
  · rw [hresult] at h
    cases h
    rfl
  · rw [hresult] at h
    cases h
    rfl

/-- A reader that does behind a piece what another one does, at least on texts that agree. -/
theorem localAt_append (front : List Char) (hother : LocalAt other text)
    (h : ∀ rest, Agree text rest → reader (front ++ rest) = other rest) :
    LocalAt reader (front ++ text) := by
  obtain ⟨taken, htext, hlocal⟩ := hother
  have heq := h text (.refl text)
  refine ⟨front ++ taken, ?_, ?_⟩
  · rw [heq, List.append_assoc, ← htext]
  · intro rest hrest
    rw [heq] at hrest ⊢
    have hagree : Agree text (taken ++ rest) := by
      have hfront := hrest.append taken
      rwa [← htext] at hfront
    rw [List.append_assoc, h _ hagree]
    exact hlocal rest hrest

theorem localAt_congr (hother : LocalAt other text)
    (h : ∀ rest, Agree text rest → reader rest = other rest) : LocalAt reader text :=
  localAt_append [] hother h

theorem localAt_cons {c : Char} (hother : LocalAt other text)
    (h : ∀ rest, Agree text rest → reader (c :: rest) = other rest) : LocalAt reader (c :: text) :=
  localAt_append [c] hother h

/-- Two readers in a row. -/
theorem LocalAt.bind (h : LocalAt reader text)
    (next : α → List Char → Except Stop (β × List Char))
    (hnext : ∀ a rest, reader text = .ok (a, rest) → LocalAt (next a) rest) :
    LocalAt (fun text => reader text >>= fun (a, rest) => next a rest) text := by
  obtain ⟨taken, htext, hlocal⟩ := h
  rcases hresult : reader text with ⟨fault, middle⟩ | ⟨a, middle⟩
  · rw [hresult] at htext hlocal
    have hstop : LocalAt (fun rest => (.error ⟨fault, rest⟩ : Except Stop (β × List Char))) middle :=
      localAt_stop _ fun _ _ => rfl
    rw [htext]
    refine localAt_append taken hstop fun rest hrest => ?_
    rw [hlocal rest hrest]
    rfl
  · rw [hresult] at htext hlocal
    rw [htext]
    refine localAt_append taken (hnext a middle hresult) fun rest hrest => ?_
    rw [hlocal rest hrest]
    rfl

theorem LocalAt.map (h : LocalAt reader text) (f : α → β) :
    LocalAt (fun text => (reader text).map fun (a, rest) => (f a, rest)) text := by
  have hbind := h.bind (fun a rest => .ok (f a, rest)) fun _ _ _ => localAt_stay _ fun _ _ => rfl
  refine localAt_congr hbind fun rest _ => ?_
  cases reader rest <;> rfl

/-- A reader without an answer of its own, only with a text left, and a reader after it. -/
theorem localAt_bind_rest {skip : List Char → Except Stop (List Char)}
    {next : List Char → Except Stop (β × List Char)}
    (h : LocalAt (fun text => (skip text).map fun rest => ((), rest)) text)
    (hnext : ∀ rest, skip text = .ok rest → LocalAt next rest) :
    LocalAt (fun text => skip text >>= next) text := by
  refine localAt_congr (h.bind (fun _ => next) fun _ rest hrest => ?_) fun rest _ => ?_
  · obtain ⟨_, hskip, he⟩ := map_eq_ok_iff.mp hrest
    cases he
    exact hnext rest hskip
  · cases skip rest <;> rfl

end LocalAt

/-! ### Trivia and marks -/

/-- Whether a text starts with a token shows on its first two characters. -/
theorem Agree.startsToken {text other : List Char} (h : Agree text other) (htext : StartsToken text) :
    StartsToken other := by
  cases text with
  | nil => cases htext
  | cons c text =>
      obtain ⟨rest, rfl, hhead⟩ := h.cons
      refine ⟨htext.1, ?_⟩
      rw [hhead]
      exact htext.2

theorem localAt_skipTrivia (surrounding : Surrounding) (text : List Char) :
    LocalAt (fun text => (skipTrivia surrounding text).map fun rest => ((), rest)) text := by
  fun_induction skipTrivia surrounding text with
  | case1 text ih => exact localAt_append ['/', '*'] ih fun _ _ => rfl
  | case2 text ih => exact localAt_append ['/', '/'] ih fun _ _ => rfl
  | case3 c text _ _ hc ih => exact localAt_cons ih fun rest _ => by rw [skipTrivia_blank hc]
  | case4 c text hblock hline hc =>
      have hskip : skipTrivia .outside (c :: text) = .ok (c :: text) := by
        rw [skipTrivia.eq_3 _ _ hblock hline, if_neg hc]
      have htoken : StartsToken (c :: text) :=
        (startsToken_of_skipTrivia hskip).resolve_left (List.cons_ne_nil c text)
      exact localAt_stay () fun rest hrest => by
        rw [skipTrivia_of_startsToken (hrest.startsToken htoken)]
        rfl
  | case5 => exact localAt_nil rfl
  | case6 text ih => exact localAt_append ['*', '/'] ih fun _ _ => rfl
  | case7 c text hopen ih =>
      refine localAt_cons ih fun rest hrest => ?_
      have hopen' : ∀ tail, c = '*' → rest = '/' :: tail → False := by
        rintro tail hc rfl
        obtain ⟨tail', htail'⟩ := List.head?_eq_some_iff.mp hrest.head?.symm
        exact hopen tail' hc htail'
      rw [skipTrivia.eq_6 _ _ hopen']
  | case8 => exact localAt_nil rfl
  | case9 text ih => exact localAt_cons ih fun _ _ => rfl
  | case10 c text hc ih => exact localAt_cons ih fun rest _ => by rw [skipTrivia.eq_9 _ _ hc]
  | case11 => exact localAt_nil rfl

/-- Trivia and then a reader that starts with a token. -/
theorem localAt_after_trivia {α : Type} {next : List Char → Except Stop (α × List Char)}
    (hnext : ∀ rest, LocalAt next rest) (text : List Char) :
    LocalAt (fun text => skipTrivia .outside text >>= next) text :=
  localAt_bind_rest (localAt_skipTrivia .outside text) fun rest _ => hnext rest

/-- A mark at the front of a text. -/
def takeMark (mark : Char) : List Char → Except Stop (List Char)
  | [] => .error ⟨.expected mark none, []⟩
  | c :: rest => if c = mark then .ok rest else .error ⟨.expected mark (some c), c :: rest⟩

theorem expectMark_eq (mark : Char) (text : List Char) :
    expectMark mark text = skipTrivia .outside text >>= takeMark mark := by
  rw [expectMark]
  refine congrArg _ (funext fun rest => ?_)
  cases rest <;> rfl

theorem localAt_takeMark (mark : Char) (text : List Char) :
    LocalAt (fun text => (takeMark mark text).map fun rest => ((), rest)) text := by
  cases text with
  | nil => exact localAt_nil rfl
  | cons c text =>
      by_cases hc : c = mark
      · refine localAt_ok [c] () fun rest _ => ?_
        rw [List.singleton_append, takeMark, if_pos hc]
        rfl
      · refine localAt_stop (.expected mark (some c)) fun rest hrest => ?_
        obtain ⟨rest, rfl, -⟩ := hrest.cons
        rw [takeMark, if_neg hc]
        rfl

theorem localAt_expectMark (mark : Char) (text : List Char) :
    LocalAt (fun text => (expectMark mark text).map fun rest => ((), rest)) text := by
  refine localAt_congr (localAt_after_trivia (localAt_takeMark mark) text) fun rest _ => ?_
  rw [expectMark_eq]
  cases skipTrivia .outside rest <;> rfl

/-! ### Strings -/

/-- Where a code point is found to be invalid shows on the digits up to there. -/
theorem afterCodePoint_local (count : Nat) (digits : List Char) :
    ∃ taken, digits = taken ++ afterCodePoint count digits ∧
      ∀ rest, Agree (afterCodePoint count digits) rest →
        afterCodePoint count (taken ++ rest) = rest := by
  induction count generalizing digits with
  | zero => exact ⟨[], rfl, fun _ _ => rfl⟩
  | succ count ih =>
      cases digits with
      | nil =>
          refine ⟨[], rfl, fun rest hrest => ?_⟩
          rw [hrest.eq_nil]
          rfl
      | cons c digits =>
          by_cases hc : (hexDigit? c).isSome
          · obtain ⟨taken, hdigits, hlocal⟩ := ih digits
            simp only [afterCodePoint, if_pos hc]
            refine ⟨c :: taken, by rw [List.cons_append, ← hdigits], fun rest hrest => ?_⟩
            rw [List.cons_append, afterCodePoint, if_pos hc, hlocal rest hrest]
          · simp only [afterCodePoint, if_neg hc]
            refine ⟨[c], rfl, fun rest _ => ?_⟩
            rw [List.singleton_append, afterCodePoint, if_neg hc]

theorem afterCodePoint_of_codePoint? {i j k l c : Char} (h : codePoint? i j k l = some c)
    (after : List Char) : afterCodePoint 4 (i :: j :: k :: l :: after) = after := by
  obtain ⟨m, hm, h⟩ := Option.bind_eq_some_iff.mp h
  obtain ⟨n, hn, h⟩ := Option.bind_eq_some_iff.mp h
  obtain ⟨o, ho, h⟩ := Option.bind_eq_some_iff.mp h
  obtain ⟨p, hp, -⟩ := Option.bind_eq_some_iff.mp h
  simp [afterCodePoint, hm, hn, ho, hp]

/-- No four digits at the front of a text name a character. -/
def NamesNone (digits : List Char) : Prop :=
  ∀ i j k l after, digits = i :: j :: k :: l :: after → codePoint? i j k l = none

theorem readQuoted_of_namesNone {quote : Char} (hq : '\\' ≠ quote) {digits : List Char}
    (h : NamesNone digits) : readQuoted quote ('\\' :: 'U' :: digits) =
      .error ⟨.invalidCodePoint, afterCodePoint 4 digits⟩ := by
  by_cases hfour : ∃ i j k l after, digits = i :: j :: k :: l :: after
  · obtain ⟨i, j, k, l, after, rfl⟩ := hfour
    rw [readQuoted.eq_3, if_neg hq, if_pos rfl, h i j k l after rfl]
  · rw [readQuoted.eq_4 _ _ _ fun i j k l after he => hfour ⟨i, j, k, l, after, he⟩, if_neg hq,
      if_pos rfl]

theorem localAt_of_namesNone {quote : Char} (hq : '\\' ≠ quote) {digits : List Char}
    (h : NamesNone digits) : LocalAt (readQuoted quote) ('\\' :: 'U' :: digits) := by
  obtain ⟨taken, hdigits, hlocal⟩ := afterCodePoint_local 4 digits
  have hnone : ∀ rest, Agree (afterCodePoint 4 digits) rest → NamesNone (taken ++ rest) := by
    intro rest hrest i j k l after he
    by_contra hsome
    obtain ⟨c, hc⟩ := Option.ne_none_iff_exists'.mp hsome
    -- Four digits of a character are taken as a whole, so they name it in the first text too.
    have hafter : after = rest := by
      rw [← hlocal rest hrest, he, afterCodePoint_of_codePoint? hc]
    have htaken : taken = [i, j, k, l] :=
      List.append_cancel_right (he.trans (by rw [hafter]; rfl))
    have hnot := h i j k l (afterCodePoint 4 digits) (by rwa [htaken] at hdigits)
    rw [hc] at hnot
    cases hnot
  have hlocalAt : LocalAt (readQuoted quote)
      ('\\' :: 'U' :: taken ++ afterCodePoint 4 digits) := by
    refine localAt_error ('\\' :: 'U' :: taken) .invalidCodePoint fun rest hrest => ?_
    rw [List.cons_append, List.cons_append, readQuoted_of_namesNone hq (hnone rest hrest),
      hlocal rest hrest]
  rwa [List.cons_append, List.cons_append, ← hdigits] at hlocalAt

theorem localAt_readQuoted (quote : Char) (text : List Char) :
    LocalAt (readQuoted quote) text := by
  fun_induction readQuoted quote text with
  | case1 => exact localAt_nil rfl
  | case2 text =>
      refine localAt_ok [quote] [] fun rest _ => ?_
      rw [List.singleton_append, readQuoted.eq_def]
      simp
  | case3 hq =>
      have hend : LocalAt (fun rest => readQuoted quote ('\\' :: rest)) [] := by
        apply localAt_nil
        rw [readQuoted, if_neg hq, if_pos rfl]
        rfl
      exact localAt_cons hend fun _ _ => rfl
  | case4 i j k l after c hc hq ih =>
      refine localAt_append ['\\', 'U', i, j, k, l] (ih.map (c :: ·)) fun rest _ => ?_
      simp [readQuoted, hq, hc]
  | case5 i j k l after hc hq =>
      refine localAt_of_namesNone hq fun i' j' k' l' after' he => ?_
      cases he
      exact hc
  | case6 digits hfour hq =>
      exact localAt_of_namesNone hq fun i j k l after he => absurd he (hfour i j k l after)
  | case7 c after _ hU hq ih =>
      exact localAt_append ['\\', c] (ih.map (unescape c :: ·)) fun rest _ =>
        readQuoted_escape (Ne.symm hq) hU rest
  | case8 c text hquote hbackslash ih =>
      refine localAt_cons (ih.map (c :: ·)) fun rest _ => ?_
      rw [readQuoted.eq_def]
      simp only [if_neg hquote, if_neg hbackslash]

theorem localAt_readString (text : List Char) : LocalAt readString text := by
  cases text with
  | nil => exact localAt_nil rfl
  | cons c text =>
      by_cases hquote : c = '"' ∨ c = '\''
      · refine localAt_cons ((localAt_readQuoted c text).map String.ofList) fun rest _ => ?_
        rw [readString, if_pos hquote]
      · by_cases hc : isBare c = true
        · have hrun : ∀ d ∈ (c :: text).takeWhile isBare, isBare d = true :=
            fun d hd => List.mem_takeWhile_imp hd
          have hne : (c :: text).takeWhile isBare ≠ [] := by
            rw [List.takeWhile_cons_of_pos hc]
            exact List.cons_ne_nil _ _
          have hlocal : LocalAt readString
              ((c :: text).takeWhile isBare ++ (c :: text).dropWhile isBare) := by
            refine localAt_ok _ _ fun rest hrest => readString_bare hne hrun fun d hd => ?_
            have hstop := List.head?_dropWhile_not isBare (c :: text)
            rw [← hrest.head?, Option.mem_def.mp hd] at hstop
            rw [hstop]
            decide
          rwa [List.takeWhile_append_dropWhile] at hlocal
        · refine localAt_stop (.unexpectedCharacter c) fun rest hrest => ?_
          obtain ⟨rest, rfl, -⟩ := hrest.cons
          rw [readString, if_neg hquote, if_neg hc]

/-! ### Values -/

/-- A value at the front of a text. -/
def readStart (fuel : Nat) : List Char → Except Stop (PropertyList × List Char)
  | '{' :: rest => (readEntries fuel .empty rest).map fun (contents, left) =>
      (.dictionary contents, left)
  | '(' :: rest => (readItems fuel rest).map fun (items, left) => (.array items, left)
  | rest => (readString rest).map fun (contents, left) => (.string contents, left)

/-- An entry at the front of a text and all entries behind it, or the closing brace. -/
def readEntry (fuel : Nat) (contents : Dictionary PropertyList) :
    List Char → Except Stop (Dictionary PropertyList × List Char)
  | '}' :: rest => .ok (contents, rest)
  | rest => do
    let (key, rest) ← readString rest
    let rest ← expectMark '=' rest
    let (value, rest) ← readValue fuel rest
    let rest ← expectMark ';' rest
    readEntries fuel (contents.insert key value) rest

/-- An item at the front of a text and all items behind it, or the closing parenthesis. -/
def readItem (fuel : Nat) : List Char → Except Stop (List PropertyList × List Char)
  | ')' :: rest => .ok ([], rest)
  | rest => do
    let (item, rest) ← readValue fuel rest
    readSeparator fuel item rest

/-- What follows an item behind trivia. -/
def readSeparated (fuel : Nat) (item : PropertyList) :
    List Char → Except Stop (List PropertyList × List Char)
  | ',' :: rest => (readItems fuel rest).map fun (items, left) => (item :: items, left)
  | ')' :: rest => .ok ([item], rest)
  | c :: rest => .error ⟨.unseparatedItem c, c :: rest⟩
  | [] => .error ⟨.unterminatedArray, []⟩

theorem readValue_succ (fuel : Nat) (text : List Char) :
    readValue (fuel + 1) text = skipTrivia .outside text >>= readStart fuel := by
  rw [readValue]
  refine congrArg _ (funext fun rest => ?_)
  split
  · rw [readStart.eq_1]
    cases readEntries fuel .empty _ <;> rfl
  · rw [readStart.eq_2]
    cases readItems fuel _ <;> rfl
  · next hbrace hparenthesis =>
    rw [readStart.eq_3 _ _ hbrace hparenthesis]
    cases readString rest <;> rfl

theorem readEntries_succ (fuel : Nat) (contents : Dictionary PropertyList) (text : List Char) :
    readEntries (fuel + 1) contents text = skipTrivia .outside text >>= readEntry fuel contents := by
  rw [readEntries]
  refine congrArg _ (funext fun rest => ?_)
  split
  · rw [readEntry.eq_1]
    rfl
  · next hclose => rw [readEntry.eq_2 _ _ _ hclose]

theorem readItems_succ (fuel : Nat) (text : List Char) :
    readItems (fuel + 1) text = skipTrivia .outside text >>= readItem fuel := by
  rw [readItems]
  refine congrArg _ (funext fun rest => ?_)
  split
  · rw [readItem.eq_1]
    rfl
  · next hclose =>
    rw [readItem.eq_2 _ _ hclose]
    rfl

theorem readSeparator_eq (fuel : Nat) (item : PropertyList) (text : List Char) :
    readSeparator fuel item text = skipTrivia .outside text >>= readSeparated fuel item := by
  rw [readSeparator]
  refine congrArg _ (funext fun rest => ?_)
  split
  · rw [readSeparated.eq_1]
    cases readItems fuel _ <;> rfl
  · rw [readSeparated.eq_2]
    rfl
  · next hcomma hclose =>
    rw [readSeparated.eq_3 _ _ _ _ hcomma hclose]
    rfl
  · rfl

/-- Texts that agree start with the same character. -/
theorem Agree.not_cons {text other : List Char} (h : Agree text other) {c : Char}
    (hc : ¬ ∃ rest, text = c :: rest) : ∀ rest, other = c :: rest → False := by
  rintro rest rfl
  obtain ⟨tail, htail⟩ := List.head?_eq_some_iff.mp h.head?.symm
  exact hc ⟨tail, htail⟩

section Step

variable {fuel : Nat} (hvalue : ∀ text, LocalAt (readValue fuel) text)
  (hentries : ∀ contents text, LocalAt (readEntries fuel contents) text)
  (hitems : ∀ text, LocalAt (readItems fuel) text)

include hentries hitems in
theorem localAt_readStart (text : List Char) : LocalAt (readStart fuel) text := by
  by_cases hbrace : ∃ rest, text = '{' :: rest
  · obtain ⟨rest, rfl⟩ := hbrace
    exact localAt_cons ((hentries .empty rest).map .dictionary) fun rest _ => readStart.eq_1 ..
  by_cases hparenthesis : ∃ rest, text = '(' :: rest
  · obtain ⟨rest, rfl⟩ := hparenthesis
    exact localAt_cons ((hitems rest).map .array) fun rest _ => readStart.eq_2 ..
  · exact localAt_congr ((localAt_readString text).map .string) fun rest hrest =>
      readStart.eq_3 _ _ (hrest.not_cons hbrace) (hrest.not_cons hparenthesis)

include hvalue hentries in
theorem localAt_readEntry (contents : Dictionary PropertyList) (text : List Char) :
    LocalAt (readEntry fuel contents) text := by
  by_cases hclose : ∃ rest, text = '}' :: rest
  · obtain ⟨rest, rfl⟩ := hclose
    exact localAt_ok ['}'] contents fun rest _ => readEntry.eq_1 ..
  · have hentry := (localAt_readString text).bind (fun key rest => do
        let rest ← expectMark '=' rest
        let (value, rest) ← readValue fuel rest
        let rest ← expectMark ';' rest
        readEntries fuel (contents.insert key value) rest) fun key rest _ =>
      localAt_bind_rest (localAt_expectMark '=' rest) fun rest _ =>
        (hvalue rest).bind _ fun value rest _ =>
          localAt_bind_rest (localAt_expectMark ';' rest) fun rest _ => hentries _ rest
    exact localAt_congr hentry fun rest hrest => readEntry.eq_2 _ _ _ (hrest.not_cons hclose)

include hitems in
theorem localAt_readSeparated (item : PropertyList) (text : List Char) :
    LocalAt (readSeparated fuel item) text := by
  rcases text with _ | ⟨c, text⟩
  · exact localAt_nil rfl
  by_cases hcomma : c = ','
  · subst hcomma
    exact localAt_cons ((hitems text).map (item :: ·)) fun rest _ => readSeparated.eq_1 ..
  by_cases hclose : c = ')'
  · subst hclose
    exact localAt_ok [')'] [item] fun rest _ => readSeparated.eq_2 ..
  · refine localAt_stop (.unseparatedItem c) fun rest hrest => ?_
    obtain ⟨rest, rfl, -⟩ := hrest.cons
    exact readSeparated.eq_3 _ _ _ _ hcomma hclose

include hvalue hitems in
theorem localAt_readItem (text : List Char) : LocalAt (readItem fuel) text := by
  by_cases hclose : ∃ rest, text = ')' :: rest
  · obtain ⟨rest, rfl⟩ := hclose
    exact localAt_ok [')'] [] fun rest _ => readItem.eq_1 ..
  · have hseparator : ∀ item rest, LocalAt (readSeparator fuel item) rest := fun item rest =>
      localAt_congr (localAt_after_trivia (localAt_readSeparated hitems item) rest) fun rest _ =>
        readSeparator_eq fuel item rest
    have hitem := (hvalue text).bind (readSeparator fuel) fun item rest _ => hseparator item rest
    exact localAt_congr hitem fun rest hrest => readItem.eq_2 _ _ (hrest.not_cons hclose)

end Step

/-- With any fuel values, entries and items are read locally. -/
theorem localAt_readers (fuel : Nat) :
    (∀ text, LocalAt (readValue fuel) text) ∧
      (∀ contents text, LocalAt (readEntries fuel contents) text) ∧
      ∀ text, LocalAt (readItems fuel) text := by
  induction fuel with
  | zero =>
      refine ⟨fun text => ?_, fun contents text => ?_, fun text => ?_⟩
      · exact localAt_stop .unexpectedEnd fun rest _ => by rw [readValue]; rfl
      · exact localAt_stop .unexpectedEnd fun rest _ => by rw [readEntries]; rfl
      · exact localAt_stop .unexpectedEnd fun rest _ => by rw [readItems]; rfl
  | succ fuel ih =>
      obtain ⟨hvalue, hentries, hitems⟩ := ih
      refine ⟨fun text => ?_, fun contents text => ?_, fun text => ?_⟩
      · exact localAt_congr
          (localAt_after_trivia (localAt_readStart hentries hitems) text)
          fun rest _ => readValue_succ fuel rest
      · exact localAt_congr
          (localAt_after_trivia (localAt_readEntry hvalue hentries contents) text)
          fun rest _ => readEntries_succ fuel contents rest
      · exact localAt_congr
          (localAt_after_trivia (localAt_readItem hvalue hitems) text)
          fun rest _ => readItems_succ fuel rest

end BridgingHeader.PropertyList

import Mathlib.Data.List.Forall2
import BridgingHeader.Interface
import BridgingHeader.Proofs.Outcomes

/-!
# Reading back what was printed

What is printed for texts, lists and objects is read back as it was, whatever characters the texts
hold. Each kind of value adds its brackets, commas and quotes to what its parts print, so that the
round trip is shown for each kind from the round trips of the parts.
-/

namespace BridgingHeader.Json

/-! ### Strings -/

/-- The escape of a control character writes its number. -/
theorem codeUnit?_hexDigit : ∀ n < 32,
    codeUnit? '0' '0' (hexDigit (n / 16)) (hexDigit (n % 16)) = some n := by decide

theorem readStringTail_cons {c : Char} (hquote : c ≠ '"') (hbackslash : c ≠ '\\')
    (hcontrol : ¬ c < ' ') (rest : List Char) :
    readStringTail (c :: rest) =
      (readStringTail rest).map fun (contents, left) => (c :: contents, left) := by
  rw [readStringTail.eq_5 c rest hquote, if_neg hcontrol, if_neg hbackslash]
  all_goals intros; exact absurd ‹c = '\\'› hbackslash

/-- The written form of a character is read as this character. -/
theorem readStringTail_escape (c : Char) (rest : List Char) :
    readStringTail (escape c ++ rest) =
      (readStringTail rest).map fun (contents, left) => (c :: contents, left) := by
  unfold escape
  split_ifs with hquote hbackslash hb ht hn hf hr hcontrol
  · subst hquote; rfl
  · subst hbackslash; rfl
  · subst hb; rfl
  · subst ht; rfl
  · subst hn; rfl
  · subst hf; rfl
  · subst hr; rfl
  · have hsmall : c.toNat < 32 := hcontrol
    have hhigh : isHighSurrogate c.toNat = false := by simp [isHighSurrogate]; omega
    have hlow : isLowSurrogate c.toNat = false := by simp [isLowSurrogate]; omega
    simp [readStringTail, codeUnit?_hexDigit c.toNat hsmall, hhigh, hlow, Char.ofNat_toNat]
  · exact readStringTail_cons hquote hbackslash hcontrol rest

/-- What is written for a string is read up to its closing quote. -/
theorem readStringTail_flatMap_escape (text rest : List Char) :
    readStringTail (text.flatMap escape ++ '"' :: rest) = .ok (text, rest) := by
  induction text with
  | nil => rfl
  | cons c more ih =>
      rw [List.flatMap_cons, List.append_assoc, readStringTail_escape, ih]
      rfl

theorem not_lt_of_mem_escape {c d : Char} (h : d ∈ escape c) : ¬ d < ' ' := by
  by_cases hcontrol : c < ' '
  · have hnumber : ∀ n < 32, (escape (Char.ofNat n)).all (fun d => !decide (d < ' ')) = true := by
      decide
    have hall := List.all_eq_true.mp (hnumber c.toNat hcontrol) d (by rwa [Char.ofNat_toNat])
    simpa using hall
  · have hplain : escape c = ['\\', c] ∨ escape c = [c] := by
      unfold escape
      split_ifs <;> simp_all
    have hbackslash : ¬ '\\' < ' ' := by decide
    rcases hplain with hplain | hplain
    · rw [hplain, List.mem_pair] at h
      rcases h with rfl | rfl
      · exact hbackslash
      · exact hcontrol
    · rw [hplain, List.mem_singleton] at h
      rw [h]
      exact hcontrol

/-- No control character is written as it is. -/
theorem not_lt_of_mem_printString {text : List Char} {d : Char} (h : d ∈ printString text) :
    ¬ d < ' ' := by
  simp only [printString, List.cons_append, List.mem_cons, List.mem_append, List.mem_flatMap,
    List.not_mem_nil, or_false] at h
  rcases h with rfl | ⟨c, -, hd⟩ | rfl
  · decide
  · exact not_lt_of_mem_escape hd
  · decide

/-! ### Values -/

/-- A printed value is free of control characters and read back as a value, in at most a number of
arrays and objects. -/
structure Survives (depth : Nat) (value result : Json) : Prop where
  starts : ∃ first more, printValue value = first :: more ∧ isSpace first = false ∧ first ≠ ']'
  clean : ∀ c ∈ printValue value, ¬ c < ' '
  reads : ∀ fuel rest, 2 * (printValue value).length ≤ fuel →
    readValue depth fuel (printValue value ++ rest) = .ok (result, rest)

theorem skipSpace_cons {c : Char} (h : isSpace c = false) (rest : List Char) :
    skipSpace (c :: rest) = c :: rest := by
  rw [skipSpace, List.dropWhile_cons_of_neg (by simp [h])]

theorem survives_string (depth : Nat) (text : String) :
    Survives depth (.string text) (.string text) := by
  constructor
  case starts => exact ⟨'"', _, rfl, by decide, by decide⟩
  case clean => exact fun c hc => not_lt_of_mem_printString hc
  case reads =>
    intro fuel rest hfuel
    have hprint : printValue (.string text) ++ rest =
        '"' :: (text.toList.flatMap escape ++ '"' :: rest) := by
      simp [printValue, printString]
    cases fuel with
    | zero => simp [printValue, printString] at hfuel
    | succ fuel =>
        rw [hprint, readValue, skipSpace_cons (by decide)]
        change (readStringTail _ >>= _) = _
        rw [readStringTail_flatMap_escape]
        simp [bind, Except.bind, pure, Except.pure]

/-- Items are printed one after the other, and so are they read. -/
theorem readItems_printItems {depth : Nat} {items results : List Json}
    (h : List.Forall₂ (Survives depth) items results) (hitems : items ≠ []) (fuel : Nat)
    (rest : List Char) (hfuel : 2 * (printItems items).length + 1 ≤ fuel) :
    readItems depth fuel (printItems items ++ ']' :: rest) = .ok (results, rest) := by
  induction h generalizing fuel with
  | nil => exact absurd rfl hitems
  | @cons item result items results hfirst hmore ih =>
      obtain ⟨fuel, rfl⟩ : ∃ less, fuel = less + 1 := ⟨fuel - 1, by omega⟩
      cases hmore with
      | nil =>
          rw [printItems] at hfuel ⊢
          rw [readItems, hfirst.reads fuel _ (by omega)]
          simp only [ok_bind, skipSpace_cons (c := ']') (by decide)]
          rfl
      | @cons next answer others answers hnext hothers =>
          have hprint : printItems (item :: next :: others) =
              printValue item ++ ',' :: printItems (next :: others) := rfl
          rw [hprint, List.length_append, List.length_cons] at hfuel
          have hrest := ih (by simp) fuel (by omega)
          rw [hprint, List.append_assoc, readItems, hfirst.reads fuel _ (by omega)]
          simp only [ok_bind, List.cons_append, skipSpace_cons (c := ',') (by decide)]
          change (readItems depth fuel _ >>= _) = _
          rw [hrest]
          rfl

/-- What all items have in common with a comma, the printed items have. -/
theorem forall_mem_printItems {P : Char → Prop} (hcomma : P ',') {items : List Json}
    (h : ∀ item ∈ items, ∀ c ∈ printValue item, P c) : ∀ c ∈ printItems items, P c := by
  induction items with
  | nil =>
      intro c hc
      cases hc
  | cons item more ih =>
      rw [List.forall_mem_cons] at h
      cases more with
      | nil => exact h.1
      | cons next others =>
          have hprint : printItems (item :: next :: others) =
              printValue item ++ ',' :: printItems (next :: others) := rfl
          rw [hprint, List.forall_mem_append, List.forall_mem_cons]
          exact ⟨h.1, hcomma, ih h.2⟩

theorem exists_printItems_cons (item : Json) (more : List Json) :
    ∃ tail, printItems (item :: more) = printValue item ++ tail := by
  cases more with
  | nil => exact ⟨[], (List.append_nil _).symm⟩
  | cons next others => exact ⟨',' :: printItems (next :: others), rfl⟩

theorem readValue_array {depth : Nat} (hdepth : 1 ≤ depth) {first : Char}
    (hspace : isSpace first = false) (hclose : first ≠ ']') (fuel : Nat) (tail : List Char) :
    readValue (depth + 1) (fuel + 1) ('[' :: first :: tail) =
      readItems depth fuel (first :: tail) >>= fun read => .ok (.array read.1, read.2) := by
  have hlimit : ¬ depth + 1 ≤ 1 := by omega
  rw [readValue, skipSpace_cons (by decide)]
  simp only [skipSpace_cons hspace, if_neg hlimit]
  split
  · next heq => exact absurd (List.cons.inj heq).1 hclose
  · rfl

/-- An array survives in one more array than its items. -/
theorem survives_array {depth : Nat} {items results : List Json} (hdepth : 1 ≤ depth)
    (h : List.Forall₂ (Survives depth) items results) :
    Survives (depth + 1) (.array items) (.array results) := by
  have hprint : printValue (.array items) = '[' :: (printItems items ++ [']']) := rfl
  constructor
  case starts => exact ⟨'[', _, hprint, by decide, by decide⟩
  case clean =>
    have hitems := ((List.forall₂_and_left _ _).mp (h.imp fun _ _ hab => ⟨hab.clean, hab⟩)).1
    rw [hprint, List.forall_mem_cons, List.forall_mem_append]
    exact ⟨by decide, forall_mem_printItems (by decide) hitems,
      List.forall_mem_singleton.mpr (by decide)⟩
  case reads =>
    intro fuel rest hfuel
    rw [hprint, List.length_cons, List.length_append, List.length_singleton] at hfuel
    obtain ⟨fuel, rfl⟩ : ∃ less, fuel = less + 1 := ⟨fuel - 1, by omega⟩
    rw [hprint, List.cons_append, List.append_assoc, List.singleton_append]
    cases h with
    | nil =>
        have hlimit : ¬ depth + 1 ≤ 1 := by omega
        rw [readValue, skipSpace_cons (by decide)]
        simp only [if_neg hlimit]
        rfl
    | @cons item result items results hfirst hmore =>
        obtain ⟨first, more, hvalue, hspace, hclose⟩ := hfirst.starts
        obtain ⟨tail, htail⟩ := exists_printItems_cons item items
        have hread := readItems_printItems (.cons hfirst hmore) (by simp) fuel rest (by omega)
        rw [htail, hvalue, List.append_assoc, List.cons_append] at hread ⊢
        rw [readValue_array hdepth hspace hclose, hread]
        rfl

/-! ### Objects -/

/-- Members that have been read are in the order of their keys, and a key has its last value. -/
def sorted (members : List (String × Json)) : List (String × Json) :=
  members.foldl (fun earlier member => insertMember member.1 member.2 earlier) []

theorem insertMember_of_lt {key other : String} (h : key < other) (value held : Json)
    (rest : List (String × Json)) :
    insertMember key value ((other, held) :: rest) = (key, value) :: (other, held) :: rest := by
  rw [insertMember, if_pos h]

/-- The value of a member survives, under its key. -/
def MemberSurvives (depth : Nat) (member result : String × Json) : Prop :=
  member.1 = result.1 ∧ Survives depth member.2 result.2

theorem printMembers_cons_cons (member next : String × Json) (others : List (String × Json)) :
    printMembers (member :: next :: others) =
      printString member.1.toList ++ ':' :: (printValue member.2 ++
        ',' :: printMembers (next :: others)) := by
  rw [printMembers.eq_3 member.1 member.2 (next :: others) (by simp), List.append_assoc,
    List.cons_append]

theorem exists_printMembers_cons (member : String × Json) (more : List (String × Json)) :
    ∃ tail, printMembers (member :: more) = '"' :: tail := by
  cases more with
  | nil => exact ⟨_, rfl⟩
  | cons next others => exact ⟨_, printMembers_cons_cons member next others⟩

/-- A member is read and set; then the object goes on or ends. -/
theorem readMembers_member {depth fuel : Nat} {member result : String × Json}
    (h : MemberSurvives depth member result) (earlier : List (String × Json)) {close : Char}
    (hclose : isSpace close = false) (rest : List Char)
    (hfuel : 2 * (printValue member.2).length ≤ fuel) :
    readMembers depth (fuel + 1) earlier
        (printString member.1.toList ++ ':' :: (printValue member.2 ++ close :: rest)) =
      match close :: rest with
      | ',' :: rest => readMembers depth fuel (insertMember result.1 result.2 earlier) rest
      | '\x7d' :: rest => .ok (insertMember result.1 result.2 earlier, rest)
      | rest => .error ⟨.expectedSeparator, rest⟩ := by
  obtain ⟨hkey, hvalue⟩ := h
  have hprint : printString member.1.toList ++ ':' :: (printValue member.2 ++ close :: rest) =
      '"' :: (member.1.toList.flatMap escape ++
        '"' :: ':' :: (printValue member.2 ++ close :: rest)) := by
    simp [printString]
  rw [hprint, readMembers, skipSpace_cons (by decide)]
  simp only [readStringTail_flatMap_escape, ok_bind, skipSpace_cons (c := ':') (by decide),
    hvalue.reads fuel _ hfuel, skipSpace_cons hclose, String.ofList_toList, hkey]
  rfl

/-- Members are printed one after the other, and so are they read. -/
theorem readMembers_printMembers {depth : Nat} {members results : List (String × Json)}
    (h : List.Forall₂ (MemberSurvives depth) members results) (hmembers : members ≠ [])
    (earlier : List (String × Json)) (fuel : Nat) (rest : List Char)
    (hfuel : 2 * (printMembers members).length + 1 ≤ fuel) :
    readMembers depth fuel earlier (printMembers members ++ '\x7d' :: rest) =
      .ok (results.foldl (fun earlier member => insertMember member.1 member.2 earlier) earlier,
        rest) := by
  induction h generalizing earlier fuel with
  | nil => exact absurd rfl hmembers
  | @cons member result members results hfirst hmore ih =>
      obtain ⟨fuel, rfl⟩ : ∃ less, fuel = less + 1 := ⟨fuel - 1, by omega⟩
      cases hmore with
      | nil =>
          have hprint : printMembers [member] =
              printString member.1.toList ++ ':' :: printValue member.2 := rfl
          rw [hprint, List.length_append, List.length_cons] at hfuel
          rw [hprint, List.append_assoc, List.cons_append,
            readMembers_member hfirst earlier (by decide) rest (by omega)]
          rfl
      | @cons next answer others answers hnext hothers =>
          rw [printMembers_cons_cons] at hfuel ⊢
          simp only [List.length_append, List.length_cons] at hfuel
          rw [List.append_assoc, List.cons_append, List.append_assoc, List.cons_append,
            readMembers_member hfirst earlier (by decide) _ (by omega)]
          exact ih (by simp) _ fuel (by omega)

/-- What all keys and values have in common with the marks between them, printed members have. -/
theorem forall_mem_printMembers {P : Char → Prop} (hcolon : P ':') (hcomma : P ',')
    {members : List (String × Json)}
    (hkeys : ∀ member ∈ members, ∀ c ∈ printString member.1.toList, P c)
    (hvalues : ∀ member ∈ members, ∀ c ∈ printValue member.2, P c) :
    ∀ c ∈ printMembers members, P c := by
  induction members with
  | nil =>
      intro c hc
      cases hc
  | cons member more ih =>
      rw [List.forall_mem_cons] at hkeys hvalues
      cases more with
      | nil =>
          have hprint : printMembers [member] =
              printString member.1.toList ++ ':' :: printValue member.2 := rfl
          rw [hprint, List.forall_mem_append, List.forall_mem_cons]
          exact ⟨hkeys.1, hcolon, hvalues.1⟩
      | cons next others =>
          rw [printMembers_cons_cons, List.forall_mem_append, List.forall_mem_cons,
            List.forall_mem_append, List.forall_mem_cons]
          exact ⟨hkeys.1, hcolon, hvalues.1, hcomma, ih hkeys.2 hvalues.2⟩

/-- An object survives in one more object than its members, sorted. -/
theorem survives_object {depth : Nat} {members results : List (String × Json)} (hdepth : 1 ≤ depth)
    (h : List.Forall₂ (MemberSurvives depth) members results) :
    Survives (depth + 1) (.object members) (.object (sorted results)) := by
  have hprint : printValue (.object members) = '\x7b' :: (printMembers members ++ ['\x7d']) := rfl
  have hlimit : ¬ depth + 1 ≤ 1 := by omega
  constructor
  case starts => exact ⟨'\x7b', _, hprint, by decide, by decide⟩
  case clean =>
    have hvalues := ((List.forall₂_and_left _ _).mp (h.imp fun _ _ hab => ⟨hab.2.clean, hab⟩)).1
    rw [hprint, List.forall_mem_cons, List.forall_mem_append]
    exact ⟨by decide, forall_mem_printMembers (by decide) (by decide)
      (fun _ _ _ hc => not_lt_of_mem_printString hc) hvalues,
      List.forall_mem_singleton.mpr (by decide)⟩
  case reads =>
    intro fuel rest hfuel
    rw [hprint, List.length_cons, List.length_append, List.length_singleton] at hfuel
    obtain ⟨fuel, rfl⟩ : ∃ less, fuel = less + 1 := ⟨fuel - 1, by omega⟩
    rw [hprint, List.cons_append, List.append_assoc, List.singleton_append, readValue,
      skipSpace_cons (by decide)]
    simp only [if_neg hlimit]
    cases h with
    | nil => rfl
    | @cons member result members results hfirst hmore =>
        have hread := readMembers_printMembers (.cons hfirst hmore) (by simp) [] fuel rest (by omega)
        obtain ⟨tail, htail⟩ := exists_printMembers_cons member members
        rw [htail, List.cons_append] at hread ⊢
        rw [skipSpace_cons (by decide)]
        change (readMembers depth fuel [] _ >>= _) = _
        rw [hread]
        rfl

/-- A value that survives in few enough arrays and objects is what the printed document holds. -/
theorem Survives.read_print {value result : Json} (h : Survives nestingLimit value result) :
    read value.print = .ok result := by
  have hread := h.reads (2 * (printValue value).length + 1) [] (Nat.le_succ _)
  rw [List.append_nil] at hread
  rw [read, print, String.toList_ofList, readDocument, hread]
  rfl

/-! ### Requests -/

theorem survives_strings (depth : Nat) (texts : List String) :
    List.Forall₂ (Survives depth) (texts.map .string) (texts.map .string) := by
  rw [List.forall₂_same]
  intro value hvalue
  obtain ⟨text, -, rfl⟩ := List.mem_map.mp hvalue
  exact survives_string depth text

end BridgingHeader.Json

namespace BridgingHeader

open Json (Survives MemberSurvives survives_string survives_array survives_object)

/-- A request survives with its members in the order of their keys. -/
theorem InterfaceRequest.survives (request : InterfaceRequest) :
    Survives Json.nestingLimit request.toJson (.object
      [("key.compilerargs", .array (request.compilerArguments.map .string)),
       ("key.filepath", .string request.file.text),
       ("key.name", .string request.uuid),
       ("key.request", .string InterfaceRequest.kind)]) := by
  have hstring (key text : String) :
      MemberSurvives 127 (key, .string text) (key, .string text) :=
    ⟨rfl, survives_string 127 text⟩
  have harguments : MemberSurvives 127
      ("key.compilerargs", .array (request.compilerArguments.map .string))
      ("key.compilerargs", .array (request.compilerArguments.map .string)) :=
    ⟨rfl, survives_array (by decide) (Json.survives_strings 126 request.compilerArguments)⟩
  have hsorted (kind uuid file arguments : Json) :
      Json.sorted [("key.request", kind), ("key.name", uuid), ("key.filepath", file),
        ("key.compilerargs", arguments)] =
      [("key.compilerargs", arguments), ("key.filepath", file), ("key.name", uuid),
        ("key.request", kind)] := by
    have hname : "key.name" < "key.request" := by decide
    have hfile : "key.filepath" < "key.name" := by decide
    have hcompiler : "key.compilerargs" < "key.filepath" := by decide
    rw [Json.sorted, List.foldl_cons, List.foldl_cons, List.foldl_cons, List.foldl_cons,
      List.foldl_nil, Json.insertMember, Json.insertMember_of_lt hname,
      Json.insertMember_of_lt hfile, Json.insertMember_of_lt hcompiler]
  rw [← hsorted]
  exact survives_object (by decide)
    (.cons (hstring _ _) (.cons (hstring _ _) (.cons (hstring _ _) (.cons harguments .nil))))

/-- Whatever a request holds, its text has none of the characters below U+0020, and is read back as an
object with exactly its four members. -/
theorem InterfaceRequest.parse_toJson_print (request : InterfaceRequest) :
    (∀ c ∈ request.toJson.print.toList, ¬ c < ' ') ∧
    Response.parse request.toJson.print = .ok
      [("key.compilerargs",
          .array ((["-x", "objective-c", request.file.text] ++ request.arguments).map .string)),
       ("key.filepath", .string request.file.text),
       ("key.name", .string request.uuid),
       ("key.request", .string "source.request.editor.open.interface.header")] := by
  constructor
  · rw [Json.print, String.toList_ofList]
    exact request.survives.clean
  · rw [Response.parse, request.survives.read_print]
    rfl

end BridgingHeader

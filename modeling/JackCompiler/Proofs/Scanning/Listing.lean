import JackCompiler.Proofs.Scanning.RoundTrip
import JackCompiler.Token.Listing

/-!
# Listings are read again

An escaped text holds no character that marks are made of, so a `<` in a listing begins a mark, whatever the values of the
tokens are. A reader therefore cuts a listing at each `<`: behind one of them stands the kind and the value of a token, behind
the next the end of the entry. Escaping is undone exactly (`unescape_flatMap_escapeChar`), and the kind tells how the value is
to be read (`Category.kindOf?_value`). Main statement: `listing_determines_kinds`.
-/

namespace JackCompiler

/-! ## Escaped texts -/

/-- A text with the characters of marks in place of their names. -/
def unescape : List Char → List Char
  | '&' :: 'l' :: 't' :: ';' :: rest => '<' :: unescape rest
  | '&' :: 'g' :: 't' :: ';' :: rest => '>' :: unescape rest
  | '&' :: 'a' :: 'm' :: 'p' :: ';' :: rest => '&' :: unescape rest
  | '&' :: 'q' :: 'u' :: 'o' :: 't' :: ';' :: rest => '"' :: unescape rest
  | c :: rest => c :: unescape rest
  | [] => []

/-- A character that begins no name stands for itself. -/
theorem unescape_cons {c : Char} (h : c ≠ '&') (rest : List Char) : unescape (c :: rest) = c :: unescape rest := by
  conv_lhs => unfold unescape
  split <;> simp_all

theorem unescape_escapeChar (c : Char) (rest : List Char) : unescape (escapeChar c ++ rest) = c :: unescape rest := by
  unfold escapeChar
  split
  · simp [unescape]
  · simp [unescape]
  · simp [unescape]
  · simp [unescape]
  · next hamp _ => exact unescape_cons hamp rest

/-- Escaping is undone exactly, also where the text looks escaped already. -/
theorem unescape_flatMap_escapeChar (text : List Char) : unescape (text.flatMap escapeChar) = text := by
  induction text with
  | nil => rfl
  | cons c text ih => rw [List.flatMap_cons, unescape_escapeChar, ih]

/-- The characters of marks, those of entities apart. -/
def isMarkChar (c : Char) : Bool :=
  c = '<' || c = '>' || c = '"'

theorem any_isMarkChar_escapeChar (c : Char) : (escapeChar c).any isMarkChar = false := by
  unfold escapeChar
  split
  case h_5 lt gt _ quot => simpa [isMarkChar] using ⟨⟨lt, gt⟩, quot⟩
  all_goals decide

/-- An escaped text holds no character of a mark. -/
theorem any_isMarkChar_escape (text : String) : (escape text).toList.any isMarkChar = false := by
  rw [escape, String.toList_ofList, List.any_flatMap, List.any_eq_false]
  intro c _
  rw [any_isMarkChar_escapeChar]
  exact Bool.false_ne_true

theorem notMem_escape {c : Char} (hc : isMarkChar c = true) (text : String) : c ∉ (escape text).toList := by
  intro h
  have none := any_isMarkChar_escape text
  rw [List.any_eq_false] at none
  exact none c h hc

/-! ## Reading values -/

/-- The kinds of token. -/
def Category.all : List Category :=
  [.keyword, .symbol, .identifier, .integerConstant, .stringConstant]

/-- The kind of token with the given name. -/
def Category.ofName? (text : String) : Option Category :=
  all.find? fun category => category.name == text

/-- The token of a kind with the given value. -/
def Category.kindOf? : Category → String → Option TokenKind
  | .keyword, text => (Keyword.ofSpelling? text).map .keyword
  | .symbol, text => if text.length = 1 then text.toList.head?.map .symbol else none
  | .identifier, text => some (.identifier text)
  | .integerConstant, text => (Decimal.word? text).map .integer
  | .stringConstant, text => some (.string text)

theorem Category.ofName?_name (category : Category) : ofName? category.name = some category := by
  cases category <;> rfl

/-- A token is read from its kind and its value. -/
theorem Category.kindOf?_value (kind : TokenKind) : kind.category.kindOf? kind.value = some kind := by
  cases kind with
  | keyword word => cases word <;> rfl
  | symbol c => simp [TokenKind.category, TokenKind.value, TokenKind.lexeme, kindOf?]
  | identifier name => rfl
  | integer value =>
    rw [TokenKind.category, TokenKind.value, TokenKind.lexeme, kindOf?, Decimal.word?_toString]
    · rfl
    · rintro _ ⟨⟩
  | string body => rfl

/-! ## Reading listings -/

/-- The token of an entry, given what stands behind the `<` of its two marks. -/
def readItem? (opening closing : List Char) : Option TokenKind :=
  let name := opening.takeWhile (· ≠ '>')
  if closing = '/' :: name ++ ['>', '\n'] then
    (Category.ofName? (String.ofList name)).bind fun category =>
      category.kindOf? (String.ofList (unescape (opening.drop (name.length + 2)).dropLast))
  else none

/-- The tokens of the entries up to the end of a listing, given what stands behind each `<`. -/
def readItems? : List (List Char) → Option (List TokenKind)
  | opening :: closing :: rest =>
    (readItem? opening closing).bind fun kind => (readItems? rest).map (kind :: ·)
  | [last] => if last = "/tokens>\n".toList then some [] else none
  | [] => none

/-- The kinds of the tokens that a text lists, if it is a listing. -/
def readListing? (text : String) : Option (List TokenKind) :=
  match text.toList.splitOn '<' with
  | [] :: first :: parts => if first = "tokens>\n".toList then readItems? parts else none
  | _ => none

/-- What stands behind the `<` of the first mark of an entry. -/
def TokenKind.opening (kind : TokenKind) : List Char :=
  kind.category.name.toList ++ '>' :: ' ' :: ((escape kind.value).toList ++ [' '])

/-- What stands behind the `<` of the second mark of an entry. -/
def TokenKind.closing (kind : TokenKind) : List Char :=
  '/' :: kind.category.name.toList ++ ['>', '\n']

/-- What stands behind each `<` of the entries of a listing, and of its end. -/
def entryParts (kinds : List TokenKind) : List (List Char) :=
  kinds.flatMap (fun kind => [kind.opening, kind.closing]) ++ ["/tokens>\n".toList]

/-- Lines that are put behind a text one by one. -/
theorem foldl_lines_eq {α : Type} (line : α → String) (before : String) (xs : List α) :
    xs.foldl (fun text x => text ++ line x ++ "\n") before = before ++ String.join (xs.map fun x => line x ++ "\n") := by
  induction xs generalizing before with
  | nil => simp
  | cons x xs ih =>
    rw [List.foldl_cons, ih, List.map_cons, String.join_cons]
    simp only [String.append_assoc]

theorem listing_eq (tokens : List Token) :
    listing tokens = "<tokens>\n" ++ String.join (tokens.map fun token => token.kind.entry ++ "\n") ++ "</tokens>\n" := by
  rw [listing, foldl_lines_eq fun token : Token => token.kind.entry]

/-- A listing shows the kinds of its tokens and nothing else. -/
theorem listing_congr {tokens tokens' : List Token} (h : tokens.map (·.kind) = tokens'.map (·.kind)) :
    listing tokens = listing tokens' := by
  have entries (tokens : List Token) :
      (tokens.map fun token => token.kind.entry ++ "\n") = (tokens.map (·.kind)).map fun kind => kind.entry ++ "\n" := by
    rw [List.map_map]
    rfl
  rw [listing_eq, listing_eq, entries, entries, h]

theorem toList_entry (kind : TokenKind) :
    (kind.entry ++ "\n").toList = [kind.opening, kind.closing].flatMap ('<' :: ·) := by
  simp [TokenKind.entry, TokenKind.opening, TokenKind.closing]

/-- A listing is its parts, each behind a `<`. -/
theorem toList_listing (tokens : List Token) :
    (listing tokens).toList = ("tokens>\n".toList :: entryParts (tokens.map (·.kind))).flatMap ('<' :: ·) := by
  have entries (kinds : List TokenKind) :
      kinds.flatMap (fun kind => (kind.entry ++ "\n").toList) =
        (kinds.flatMap fun kind => [kind.opening, kind.closing]).flatMap ('<' :: ·) := by
    induction kinds with
    | nil => rfl
    | cons kind kinds ih => rw [List.flatMap_cons, List.flatMap_cons, List.flatMap_append, ih, toList_entry]
  rw [listing_eq, String.toList_append, String.toList_append, String.toList_join, List.flatMap_map, List.flatMap_cons,
    entryParts, List.flatMap_append, ← entries, List.flatMap_map]
  simp

/-- A text is cut at each mark of a character into what stands behind it. -/
theorem splitOn_flatMap_cons {c : Char} {parts : List (List Char)} (h : ∀ part ∈ parts, c ∉ part) :
    List.splitOn c (parts.flatMap (c :: ·)) = [] :: parts := by
  induction parts with
  | nil => exact List.splitOn_nil c
  | cons part parts ih =>
    obtain ⟨hpart, hparts⟩ := List.forall_mem_cons.mp h
    have first (rest : List Char) : List.splitOn c (c :: rest) = [] :: List.splitOn c rest :=
      List.splitOn_append_cons_self_of_not_mem List.not_mem_nil rest
    rw [List.flatMap_cons, List.cons_append, first]
    cases parts with
    | nil => rw [List.flatMap_nil, List.append_nil, List.splitOn_eq_singleton hpart]
    | cons next parts =>
      have later := ih hparts
      rw [List.flatMap_cons, List.cons_append, first] at later
      rw [List.flatMap_cons, List.cons_append, List.splitOn_append_cons_self_of_not_mem hpart, (List.cons.inj later).2]

theorem notMem_categoryName (category : Category) : '<' ∉ category.name.toList ∧ '>' ∉ category.name.toList := by
  cases category <;> decide

/-- No `<` stands inside a part of a listing. -/
theorem notMem_entryParts (kinds : List TokenKind) : ∀ part ∈ "tokens>\n".toList :: entryParts kinds, '<' ∉ part := by
  refine List.forall_mem_cons.mpr ⟨by decide, List.forall_mem_append.mpr ⟨fun part hpart => ?_, ?_⟩⟩
  · obtain ⟨kind, -, hpart⟩ := List.mem_flatMap.mp hpart
    have name := (notMem_categoryName kind.category).1
    have value : '<' ∉ (escape kind.value).toList := notMem_escape (by decide) _
    simp only [List.mem_cons, List.not_mem_nil, or_false] at hpart
    rcases hpart with rfl | rfl
    · simp [TokenKind.opening, name, value]
    · simp [TokenKind.closing, name]
  · exact List.forall_mem_singleton.mpr (by decide)

/-- A token is read from its entry. -/
theorem readItem?_entry (kind : TokenKind) : readItem? kind.opening kind.closing = some kind := by
  have name : kind.opening.takeWhile (· ≠ '>') = kind.category.name.toList := by
    have inside : ∀ c ∈ kind.category.name.toList, (decide (c ≠ '>')) = true := by
      intro c hc
      exact decide_eq_true fun h => (notMem_categoryName kind.category).2 (h ▸ hc)
    rw [TokenKind.opening, List.takeWhile_append_of_pos inside]
    simp
  have value : kind.opening.drop (kind.category.name.toList.length + 2) = (escape kind.value).toList ++ [' '] := by
    rw [TokenKind.opening, ← List.drop_drop, List.drop_left]
    rfl
  rw [readItem?, name, TokenKind.closing, if_pos rfl, value, List.dropLast_concat, String.ofList_toList,
    Category.ofName?_name, Option.bind_some, escape, String.toList_ofList, unescape_flatMap_escapeChar,
    String.ofList_toList, Category.kindOf?_value]

theorem readItems?_entryParts (kinds : List TokenKind) : readItems? (entryParts kinds) = some kinds := by
  induction kinds with
  | nil => rfl
  | cons kind kinds ih =>
    rw [entryParts, List.flatMap_cons, List.append_assoc, ← entryParts, List.cons_append, List.singleton_append,
      readItems?, readItem?_entry, Option.bind_some, ih]
    rfl

/-- The kinds of the tokens are read from a listing. -/
theorem readListing?_listing (tokens : List Token) : readListing? (listing tokens) = some (tokens.map (·.kind)) := by
  rw [readListing?, toList_listing, splitOn_flatMap_cons (notMem_entryParts _)]
  exact readItems?_entryParts _

/-! ## Main statement -/

/-- Two token lists have the same listing exactly when they have the same kinds in the same order, and a reader recovers the
kinds from any listing. What stands between the marks of an entry is the escaped value, which has none of their characters. -/
theorem listing_determines_kinds :
    (∀ tokens tokens' : List Token, listing tokens = listing tokens' ↔ tokens.map (·.kind) = tokens'.map (·.kind)) ∧
    (∀ tokens : List Token, readListing? (listing tokens) = some (tokens.map (·.kind))) ∧
    ∀ kind : TokenKind,
      kind.entry = "<" ++ kind.category.name ++ "> " ++ escape kind.value ++ " </" ++ kind.category.name ++ ">" ∧
        '<' ∉ (escape kind.value).toList ∧ '>' ∉ (escape kind.value).toList ∧ '"' ∉ (escape kind.value).toList := by
  refine ⟨fun tokens tokens' => ⟨fun h => ?_, listing_congr⟩, readListing?_listing, fun kind => ⟨rfl, ?_, ?_, ?_⟩⟩
  · have read := readListing?_listing tokens
    rw [h, readListing?_listing] at read
    exact (Option.some.inj read).symm
  all_goals exact notMem_escape (by decide) _

/-- A string constant that imitates the end of its entry and another entry is told from the two tokens. -/
example :
    readListing? (listing [⟨.string " </stringConstant>\n<symbol> ; ", .start⟩, ⟨.symbol '&', .start⟩]) =
      some [.string " </stringConstant>\n<symbol> ; ", .symbol '&'] := by
  decide +kernel

end JackCompiler

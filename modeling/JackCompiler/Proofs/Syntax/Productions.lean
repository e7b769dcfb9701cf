import JackCompiler.Grammar.Rule
import JackCompiler.Token.Basic
import Mathlib.Data.List.Basic

/-!
# Derivation trees

The grammar once more, now as data: every part of a class has a form, and a form says with which tokens and parts it is
written. A tree has tokens at its leaves and parts at its other nodes, and it is a derivation tree when the children of
each node are written in the form of its part. A tour of the tree enters and leaves every part and meets the tokens in
between; what an observer sees of it is `DerivationTree.events`. Nothing here knows of the walk through the tokens.

    class          = 'class' className '{' classVarDec* subroutineDec* '}'
    classVarDec    = ('static' | 'field') type varName (',' varName)* ';'
    type           = 'int' | 'char' | 'boolean' | className
    subroutineDec  = ('constructor' | 'function' | 'method') ('void' | type) subroutineName
                     '(' parameterList ')' subroutineBody
    parameterList  = (type varName (',' type varName)*)?
    subroutineBody = '{' varDec* statements '}'
    varDec         = 'var' type varName (',' varName)* ';'
    statements     = statement*
    statement      = letStatement | ifStatement | whileStatement | doStatement | returnStatement
    letStatement   = 'let' varName ('[' expression ']')? '=' expression ';'
    ifStatement    = 'if' '(' expression ')' '{' statements '}' ('else' '{' statements '}')?
    whileStatement = 'while' '(' expression ')' '{' statements '}'
    doStatement    = 'do' subroutineCall ';'
    returnStatement= 'return' expression? ';'
    expression     = term (op term)*
    term           = integerConstant | stringConstant | keywordConstant | varName | varName '[' expression ']'
                     | subroutineCall | '(' expression ')' | unaryOp term
    subroutineCall = subroutineName '(' expressionList ')'
                     | (className | varName) '.' subroutineName '(' expressionList ')'
    expressionList = (expression (',' expression)*)?
    op             = '+' | '-' | '*' | '/' | '&' | '|' | '<' | '>' | '='
    unaryOp        = '-' | '~'
    keywordConstant= 'true' | 'false' | 'null' | 'this'
-/

namespace JackCompiler

/-! ## The grammar -/

/-- The parts of a class that the grammar names. -/
inductive Nonterminal where
  | «class» | classVarDec | type | subroutineDec | parameterList | subroutineBody | varDec | statements | statement
  | letStatement | ifStatement | whileStatement | doStatement | returnStatement | expression | term | subroutineCall
  | expressionList | op | unaryOp | keywordConstant | className | varName | subroutineName
  deriving DecidableEq, Repr

/-- How something is written: the right side of a production. -/
inductive Form where
  /-- The given reserved word. -/
  | keyword (word : Keyword)
  /-- The given symbol. -/
  | symbol (char : Char)
  /-- Any name. -/
  | identifier
  /-- Any integer constant. -/
  | integer
  /-- Any string constant. -/
  | string
  /-- The given part. -/
  | part (part : Nonterminal)
  /-- Nothing at all. -/
  | empty
  /-- One after the other. -/
  | seq (first second : Form)
  /-- In no way. -/
  | never
  /-- One or the other. -/
  | either (one other : Form)
  /-- Once or not at all. -/
  | optional (form : Form)
  /-- Any number of times. -/
  | many (form : Form)
  deriving DecidableEq, Repr

namespace Form

/-- Forms one after another. -/
def all (forms : List Form) : Form :=
  forms.foldr seq empty

/-- One of some forms. -/
def any (forms : List Form) : Form :=
  forms.foldr either never

end Form

open Form in
/-- The form of each part. -/
def Nonterminal.form : Nonterminal → Form
  | .«class» =>
    all [keyword .«class», part .className, symbol '\x7b', many (part .classVarDec), many (part .subroutineDec),
      symbol '\x7d']
  | .classVarDec =>
    all [any [keyword .static, keyword .field], part .type, part .varName, many (all [symbol ',', part .varName]),
      symbol ';']
  | .type => any [keyword .int, keyword .char, keyword .boolean, part .className]
  | .subroutineDec =>
    all [any [keyword .constructor, keyword .function, keyword .method], any [keyword .void, part .type],
      part .subroutineName, symbol '(', part .parameterList, symbol ')', part .subroutineBody]
  | .parameterList =>
    optional (all [part .type, part .varName, many (all [symbol ',', part .type, part .varName])])
  | .subroutineBody => all [symbol '\x7b', many (part .varDec), part .statements, symbol '\x7d']
  | .varDec => all [keyword .var, part .type, part .varName, many (all [symbol ',', part .varName]), symbol ';']
  | .statements => many (part .statement)
  | .statement =>
    any [part .letStatement, part .ifStatement, part .whileStatement, part .doStatement, part .returnStatement]
  | .letStatement =>
    all [keyword .«let», part .varName, optional (all [symbol '[', part .expression, symbol ']']), symbol '=',
      part .expression, symbol ';']
  | .ifStatement =>
    all [keyword .«if», symbol '(', part .expression, symbol ')', symbol '\x7b', part .statements, symbol '\x7d',
      optional (all [keyword .«else», symbol '\x7b', part .statements, symbol '\x7d'])]
  | .whileStatement =>
    all [keyword .while, symbol '(', part .expression, symbol ')', symbol '\x7b', part .statements, symbol '\x7d']
  | .doStatement => all [keyword .«do», part .subroutineCall, symbol ';']
  | .returnStatement => all [keyword .«return», optional (part .expression), symbol ';']
  | .expression => all [part .term, many (all [part .op, part .term])]
  | .term =>
    any [integer, string, part .keywordConstant, part .varName,
      all [part .varName, symbol '[', part .expression, symbol ']'], part .subroutineCall,
      all [symbol '(', part .expression, symbol ')'], all [part .unaryOp, part .term]]
  | .subroutineCall =>
    any [all [part .subroutineName, symbol '(', part .expressionList, symbol ')'],
      all [any [part .className, part .varName], symbol '.', part .subroutineName, symbol '(', part .expressionList,
        symbol ')']]
  | .expressionList => optional (all [part .expression, many (all [symbol ',', part .expression])])
  | .op => any (['+', '-', '*', '/', '&', '|', '<', '>', '='].map symbol)
  | .unaryOp => any [symbol '-', symbol '~']
  | .keywordConstant => any [keyword .true, keyword .false, keyword .null, keyword .this]
  | .className | .varName | .subroutineName => identifier

/-- The observable rule of a part, if it has one. -/
@[simp] def Nonterminal.rule? : Nonterminal → Option Rule
  | .«class» => some .«class»
  | .classVarDec => some .classVarDec
  | .subroutineDec => some .subroutineDec
  | .parameterList => some .parameterList
  | .subroutineBody => some .subroutineBody
  | .varDec => some .varDec
  | .statements => some .statements
  | .letStatement => some .letStatement
  | .ifStatement => some .ifStatement
  | .whileStatement => some .whileStatement
  | .doStatement => some .doStatement
  | .returnStatement => some .returnStatement
  | .expression => some .expression
  | .term => some .term
  | .expressionList => some .expressionList
  | .type | .statement | .subroutineCall | .op | .unaryOp | .keywordConstant | .className | .varName
  | .subroutineName => none

/-! ## Trees -/

/-- A tree with tokens at its leaves and parts at its other nodes. -/
inductive DerivationTree where
  | token (kind : TokenKind)
  | node (part : Nonterminal) (children : List DerivationTree)

/-- Trees one after another. -/
abbrev Forest := List DerivationTree

/-- The part at the root of a tree, if the tree is not just a token. -/
def DerivationTree.root? : DerivationTree → Option Nonterminal
  | token _ => none
  | node part _ => some part

/-- Trees that are written in a form, when `is` says which trees stand for a part. -/
def Form.Writes (is : Nonterminal → DerivationTree → Prop) : Form → Forest → Prop
  | keyword word, ts => ts = [.token (.keyword word)]
  | symbol c, ts => ts = [.token (.symbol c)]
  | identifier, ts => ∃ name, ts = [.token (.identifier name)]
  | integer, ts => ∃ value, ts = [.token (.integer value)]
  | string, ts => ∃ body, ts = [.token (.string body)]
  | part n, ts => ∃ t, is n t ∧ ts = [t]
  | empty, ts => ts = []
  | seq first second, ts => ∃ us vs, first.Writes is us ∧ second.Writes is vs ∧ ts = us ++ vs
  | never, _ => False
  | either one other, ts => one.Writes is ts ∨ other.Writes is ts
  | optional form, ts => ts = [] ∨ form.Writes is ts
  | many form, ts => ∃ parts : List Forest, (∀ us ∈ parts, form.Writes is us) ∧ ts = parts.flatten

/-- A tree has a part at its root. -/
def DerivationTree.Stands (n : Nonterminal) (t : DerivationTree) : Prop :=
  t.root? = some n

/-- The children of every node are written in the form of its part. -/
inductive DerivationTree.Licensed : DerivationTree → Prop
  | token (kind : TokenKind) : Licensed (token kind)
  | node {part : Nonterminal} {children : Forest} (written : part.form.Writes Stands children)
      (licensed : ∀ t ∈ children, Licensed t) : Licensed (node part children)

/-- A tree derives a part when it has the part at its root and is licensed by the grammar. -/
structure DerivationTree.Derives (t : DerivationTree) (part : Nonterminal) : Prop where
  root : Stands part t
  licensed : t.Licensed

/-! ## Tours -/

/-- What a tour of a tree comes by. -/
inductive Visit where
  | token (kind : TokenKind)
  | enter (part : Nonterminal)
  | leave (part : Nonterminal)
  deriving DecidableEq, Repr

/-- The token of a visit, if there is one. -/
def Visit.kind? : Visit → Option TokenKind
  | token kind => some kind
  | enter _ | leave _ => none

/-- What an observer of the rules sees of a visit. -/
def Visit.event? : Visit → Option Event
  | token _ => none
  | enter part => part.rule?.map .enter
  | leave part => part.rule?.map .leave

mutual

/-- The tour of a tree: a part is entered, its children are toured in order, and it is left. -/
def DerivationTree.tour : DerivationTree → List Visit
  | .token kind => [.token kind]
  | .node part children => .enter part :: tourAll children ++ [.leave part]

/-- The tours of trees one after another. -/
def tourAll : Forest → List Visit
  | [] => []
  | t :: ts => t.tour ++ tourAll ts

end

/-- A trace inside a rule, if there is one. -/
@[simp] def Trace.inside : Option Rule → Trace → Trace
  | none, trace => trace
  | some rule, trace => .enter rule :: trace ++ [.leave rule]

/-- The kinds of tokens that a tree derives. -/
def DerivationTree.kinds (t : DerivationTree) : List TokenKind :=
  t.tour.filterMap Visit.kind?

/-- What an observer of the rules sees of the tour of a tree. -/
def DerivationTree.events (t : DerivationTree) : Trace :=
  t.tour.filterMap Visit.event?

/-! ## What a name stands for -/

/-- A part, when the name of a class counts as the name of a variable. -/
def Nonterminal.plain : Nonterminal → Nonterminal
  | .className => .varName
  | n => n

mutual

/-- A tree in which the name of a class counts as the name of a variable. -/
def DerivationTree.plain : DerivationTree → DerivationTree
  | .token kind => .token kind
  | .node part children => .node part.plain (plainAll children)

/-- Trees in which the name of a class counts as the name of a variable. -/
def plainAll : Forest → Forest
  | [] => []
  | t :: ts => t.plain :: plainAll ts

end

/-! ## What trees derive and show -/

@[simp] theorem Nonterminal.rule?_plain (part : Nonterminal) : part.plain.rule? = part.rule? := by
  cases part <;> rfl

namespace DerivationTree

/-- Induction over trees: a node has what all its children have. -/
@[elab_as_elim]
theorem induct {motive : DerivationTree → Prop} (token : ∀ kind, motive (token kind))
    (node : ∀ part children, (∀ t ∈ children, motive t) → motive (node part children)) (t : DerivationTree) :
    motive t :=
  match t with
  | .token kind => token kind
  | .node part children => node part children fun t _ => induct token node t

theorem tourAll_eq (ts : Forest) : tourAll ts = ts.flatMap tour := by
  induction ts with
  | nil => rfl
  | cons t ts ih => rw [tourAll, List.flatMap_cons, ih]

theorem plainAll_eq (ts : Forest) : plainAll ts = ts.map plain := by
  induction ts with
  | nil => rfl
  | cons t ts ih => rw [plainAll, List.map_cons, ih]

@[simp] theorem plain_token (kind : TokenKind) : (token kind).plain = token kind := by
  rw [plain]

@[simp] theorem plain_node (part : Nonterminal) (children : Forest) :
    (node part children).plain = node part.plain (children.map plain) := by
  rw [plain, plainAll_eq]

@[simp] theorem kinds_token (kind : TokenKind) : (token kind).kinds = [kind] := rfl

@[simp] theorem kinds_node (part : Nonterminal) (children : Forest) :
    (node part children).kinds = children.flatMap kinds := by
  rw [kinds, tour, tourAll_eq, List.cons_append, List.filterMap_cons_none rfl, List.filterMap_append,
    List.filterMap_flatMap]
  exact List.append_nil _

@[simp] theorem events_token (kind : TokenKind) : (token kind).events = [] := rfl

/-- A part shows what its children show, inside its rule if it has one. -/
@[simp] theorem events_node (part : Nonterminal) (children : Forest) :
    (node part children).events = Trace.inside part.rule? (children.flatMap events) := by
  have shown : (tourAll children).filterMap Visit.event? = children.flatMap events := by
    rw [tourAll_eq, List.filterMap_flatMap]
    rfl
  rw [events, tour, List.cons_append]
  cases h : part.rule? with
  | none =>
    have enters : (Visit.enter part).event? = none := by rw [Visit.event?, h]; rfl
    have leaves : (Visit.leave part).event? = none := by rw [Visit.event?, h]; rfl
    rw [List.filterMap_cons_none enters, List.filterMap_append, shown, List.filterMap_cons_none leaves]
    exact List.append_nil _
  | some rule =>
    have enters : (Visit.enter part).event? = some (.enter rule) := by rw [Visit.event?, h]; rfl
    have leaves : (Visit.leave part).event? = some (.leave rule) := by rw [Visit.event?, h]; rfl
    rw [List.filterMap_cons_some enters, List.filterMap_append, shown, List.filterMap_cons_some leaves]
    rfl

theorem licensed_node_iff {part : Nonterminal} {children : Forest} :
    (node part children).Licensed ↔ part.form.Writes Stands children ∧ ∀ t ∈ children, t.Licensed := by
  constructor
  · rintro (- | ⟨written, licensed⟩)
    exact ⟨written, licensed⟩
  · rintro ⟨written, licensed⟩
    exact .node written licensed

@[simp] theorem stands_node {n part : Nonterminal} {children : Forest} : Stands n (node part children) ↔ part = n :=
  Option.some_inj

@[simp] theorem licensed_token (kind : TokenKind) : (token kind).Licensed :=
  .token kind

/-- What the name of a class counts as does not change the tokens. -/
@[simp] theorem kinds_plain (t : DerivationTree) : t.plain.kinds = t.kinds := by
  induction t using induct with
  | token kind => rw [plain_token]
  | node part children ih =>
    rw [plain_node, kinds_node, kinds_node, List.flatMap_map]
    exact List.flatMap_congr ih

/-- What the name of a class counts as does not change the events. -/
@[simp] theorem events_plain (t : DerivationTree) : t.plain.events = t.events := by
  induction t using induct with
  | token kind => rw [plain_token]
  | node part children ih =>
    have shown : (children.map plain).flatMap events = children.flatMap events := by
      rw [List.flatMap_map]
      exact List.flatMap_congr ih
    rw [plain_node, events_node, events_node, part.rule?_plain, shown]

end DerivationTree

/-! ## What forms write -/

namespace Form

variable {is others : Nonterminal → DerivationTree → Prop} {form : Form} {forms rest : List Form} {ts : Forest}

@[simp] theorem writes_keyword {word : Keyword} : (keyword word).Writes is ts ↔ ts = [.token (.keyword word)] := Iff.rfl

@[simp] theorem writes_symbol {c : Char} : (symbol c).Writes is ts ↔ ts = [.token (.symbol c)] := Iff.rfl

@[simp] theorem writes_identifier : identifier.Writes is ts ↔ ∃ name, ts = [.token (.identifier name)] := Iff.rfl

@[simp] theorem writes_integer : integer.Writes is ts ↔ ∃ value, ts = [.token (.integer value)] := Iff.rfl

@[simp] theorem writes_string : string.Writes is ts ↔ ∃ body, ts = [.token (.string body)] := Iff.rfl

@[simp] theorem writes_part {n : Nonterminal} : (part n).Writes is ts ↔ ∃ t, is n t ∧ ts = [t] := Iff.rfl

@[simp] theorem writes_optional : (optional form).Writes is ts ↔ ts = [] ∨ form.Writes is ts := Iff.rfl

@[simp] theorem writes_any_nil : ¬(any []).Writes is ts := id

@[simp] theorem writes_any_cons : (any (form :: rest)).Writes is ts ↔ form.Writes is ts ∨ (any rest).Writes is ts :=
  Iff.rfl

@[simp] theorem writes_all_nil : (all []).Writes is ts ↔ ts = [] := Iff.rfl

theorem writes_all_cons :
    (all (form :: rest)).Writes is ts ↔ ∃ us vs, form.Writes is us ∧ (all rest).Writes is vs ∧ ts = us ++ vs :=
  Iff.rfl

theorem writes_all_append :
    (all (forms ++ rest)).Writes is ts ↔
      ∃ us vs, (all forms).Writes is us ∧ (all rest).Writes is vs ∧ ts = us ++ vs := by
  induction forms generalizing ts with
  | nil => simp
  | cons form forms ih =>
    rw [List.cons_append, writes_all_cons]
    constructor
    · rintro ⟨us, vs, h, hall, rfl⟩
      obtain ⟨us', vs', h', hrest, rfl⟩ := ih.mp hall
      exact ⟨us ++ us', vs', ⟨us, us', h, h', rfl⟩, hrest, (List.append_assoc ..).symm⟩
    · rintro ⟨us, vs, ⟨us', vs', h, h', rfl⟩, hrest, rfl⟩
      exact ⟨us', vs' ++ vs, h, ih.mpr ⟨vs', vs, h', hrest, rfl⟩, List.append_assoc ..⟩

@[simp] theorem writes_all_keyword {word : Keyword} :
    (all (keyword word :: rest)).Writes is ts ↔ ∃ us, (all rest).Writes is us ∧ ts = .token (.keyword word) :: us := by
  constructor
  · rintro ⟨us, vs, rfl, hrest, rfl⟩
    exact ⟨vs, hrest, rfl⟩
  · rintro ⟨us, hrest, rfl⟩
    exact ⟨_, us, rfl, hrest, rfl⟩

@[simp] theorem writes_all_symbol {c : Char} :
    (all (symbol c :: rest)).Writes is ts ↔ ∃ us, (all rest).Writes is us ∧ ts = .token (.symbol c) :: us := by
  constructor
  · rintro ⟨us, vs, rfl, hrest, rfl⟩
    exact ⟨vs, hrest, rfl⟩
  · rintro ⟨us, hrest, rfl⟩
    exact ⟨_, us, rfl, hrest, rfl⟩

@[simp] theorem writes_all_part {n : Nonterminal} :
    (all (part n :: rest)).Writes is ts ↔ ∃ t, is n t ∧ ∃ us, (all rest).Writes is us ∧ ts = t :: us := by
  constructor
  · rintro ⟨us, vs, ⟨t, ht, rfl⟩, hrest, rfl⟩
    exact ⟨t, ht, vs, hrest, rfl⟩
  · rintro ⟨t, ht, us, hrest, rfl⟩
    exact ⟨[t], us, ⟨t, ht, rfl⟩, hrest, rfl⟩

@[simp] theorem writes_all_any_nil : ¬(all (any [] :: rest)).Writes is ts := by
  rintro ⟨us, vs, ⟨⟩, hrest, rfl⟩

@[simp] theorem writes_all_any_cons :
    (all (any (form :: forms) :: rest)).Writes is ts ↔
      (all (form :: rest)).Writes is ts ∨ (all (any forms :: rest)).Writes is ts := by
  constructor
  · rintro ⟨us, vs, h | h, hrest, rfl⟩
    · exact .inl ⟨us, vs, h, hrest, rfl⟩
    · exact .inr ⟨us, vs, h, hrest, rfl⟩
  · rintro (⟨us, vs, h, hrest, rfl⟩ | ⟨us, vs, h, hrest, rfl⟩)
    · exact ⟨us, vs, .inl h, hrest, rfl⟩
    · exact ⟨us, vs, .inr h, hrest, rfl⟩

@[simp] theorem writes_all_optional :
    (all (optional form :: rest)).Writes is ts ↔ (all rest).Writes is ts ∨ (all (form :: rest)).Writes is ts := by
  constructor
  · rintro ⟨us, vs, rfl | h, hrest, rfl⟩
    · exact .inl hrest
    · exact .inr ⟨us, vs, h, hrest, rfl⟩
  · rintro (hrest | ⟨us, vs, h, hrest, rfl⟩)
    · exact ⟨[], ts, .inl rfl, hrest, rfl⟩
    · exact ⟨us, vs, .inr h, hrest, rfl⟩

@[simp] theorem writes_all_all :
    (all (all forms :: rest)).Writes is ts ↔ (all (forms ++ rest)).Writes is ts :=
  writes_all_append.symm

@[simp] theorem writes_all_many :
    (all (many form :: rest)).Writes is ts ↔
      ∃ us, (many form).Writes is us ∧ ∃ vs, (all rest).Writes is vs ∧ ts = us ++ vs := by
  constructor
  · rintro ⟨us, vs, h, hrest, rfl⟩
    exact ⟨us, h, vs, hrest, rfl⟩
  · rintro ⟨us, h, vs, hrest, rfl⟩
    exact ⟨us, vs, h, hrest, rfl⟩

@[simp] theorem writes_many_nil : (many form).Writes is [] :=
  ⟨[], List.forall_mem_nil _, rfl⟩

theorem writes_many_append {us vs : Forest} (hu : (many form).Writes is us) (hv : form.Writes is vs) :
    (many form).Writes is (us ++ vs) := by
  obtain ⟨parts, hparts, rfl⟩ := hu
  refine ⟨parts ++ [vs], ?_, by simp⟩
  rw [List.forall_mem_append, List.forall_mem_singleton]
  exact ⟨hparts, hv⟩

/-- Forests of one form stand one after another. -/
theorem writes_many_flatMap {α : Type} {f : α → Forest} (as : List α) (h : ∀ a ∈ as, form.Writes is (f a)) :
    (many form).Writes is (as.flatMap f) :=
  ⟨as.map f, List.forall_mem_map.mpr h, rfl⟩

/-- Trees of one part stand one after another. -/
theorem writes_many_map {α : Type} {n : Nonterminal} {f : α → DerivationTree} (as : List α) (h : ∀ a, is n (f a)) :
    (many (part n)).Writes is (as.map f) := by
  rw [List.map_eq_flatMap]
  exact writes_many_flatMap as fun a _ => ⟨f a, h a, rfl⟩

/-- What is written in a form any number of times comes from a list, if what is written in it once comes from an item. -/
theorem Writes.exists_flatMap {α : Type} {f : α → Forest} (h : (many form).Writes is ts)
    (hf : ∀ us, form.Writes is us → ∃ a, us = f a) : ∃ as : List α, ts = as.flatMap f := by
  obtain ⟨parts, hparts, rfl⟩ := h
  induction parts with
  | nil => exact ⟨[], rfl⟩
  | cons us parts ih =>
    obtain ⟨hus, hothers⟩ := List.forall_mem_cons.mp hparts
    obtain ⟨a, rfl⟩ := hf us hus
    obtain ⟨as, has⟩ := ih hothers
    exact ⟨a :: as, by rw [List.flatten_cons, has, List.flatMap_cons]⟩

/-- A map of trees that keeps tokens leads from trees in a form to trees in the form. -/
theorem Writes.map {f : DerivationTree → DerivationTree} (hf : ∀ kind, f (.token kind) = .token kind)
    (h : form.Writes is ts) (hi : ∀ n, ∀ t ∈ ts, is n t → others n (f t)) : form.Writes others (ts.map f) := by
  induction form generalizing ts with
  | keyword | symbol =>
    cases h
    rw [List.map_singleton, hf]
    rfl
  | identifier | integer | string =>
    obtain ⟨a, rfl⟩ := h
    rw [List.map_singleton, hf]
    exact ⟨a, rfl⟩
  | part n =>
    obtain ⟨t, ht, rfl⟩ := h
    exact ⟨f t, hi n t (List.mem_singleton.mpr rfl) ht, rfl⟩
  | empty =>
    cases h
    rfl
  | seq first second ihFirst ihSecond =>
    obtain ⟨us, vs, hu, hv, rfl⟩ := h
    rw [List.map_append]
    exact ⟨us.map f, vs.map f, ihFirst hu fun n t ht => hi n t (List.mem_append_left vs ht),
      ihSecond hv fun n t ht => hi n t (List.mem_append_right us ht), rfl⟩
  | never => cases h
  | either one other ihOne ihOther =>
    rcases h with h | h
    · exact .inl (ihOne h hi)
    · exact .inr (ihOther h hi)
  | optional form ih =>
    rcases h with rfl | h
    · exact .inl rfl
    · exact .inr (ih h hi)
  | many form ih =>
    obtain ⟨parts, hparts, rfl⟩ := h
    refine ⟨parts.map (List.map f), ?_, List.map_flatten⟩
    rw [List.forall_mem_map]
    intro us hus
    exact ih (hparts us hus) fun n t ht => hi n t (List.mem_flatten.mpr ⟨us, hus, ht⟩)

end Form

end JackCompiler

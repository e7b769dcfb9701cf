import JackCompiler.Proofs.Grammar.Soundness
import JackCompiler.Proofs.Syntax.Derivation

/-!
# The grammar derives classes and nothing else

A tree that is licensed by the grammar is, at each of its nodes, the tree of what the part there means: a class, a
statement, an expression, and so on. The proof goes from the children of a node to the node, one part of the grammar a case
(`Nonterminal.means_of_writes`), and counts a class name as a variable name, since the grammar reads a qualifier of a call
either way. The other way round the tree of a class is licensed. So derivation trees of a class are the trees of classes
(`DerivationTree.Derives.exists_class`, `ClassDeclaration.tree_derives`).
-/

namespace JackCompiler

open DerivationTree (token node Stands)

/-! ## Every derivation tree is the tree of a class -/

/-- What the trees of a part are, up to what a name stands for: the trees of classes, statements, expressions and so on. -/
def Nonterminal.Means (n : Nonterminal) (t : DerivationTree) : Prop :=
  match n with
  | .«class» => ∃ c : ClassDeclaration, t = c.tree.plain
  | .classVarDec => ∃ d : ClassVariables, t = d.tree.plain
  | .type => ∃ type : TypeName, t = type.tree.plain
  | .subroutineDec => ∃ s : Subroutine, t = s.tree.plain
  | .parameterList => ∃ ps, t = (node .parameterList (Parameter.listTrees ps)).plain
  | .subroutineBody => ∃ ds ss, t = (bodyTree ds ss).plain
  | .varDec => ∃ d, t = (localTree d).plain
  | .statements => ∃ ss, t = (node .statements (blockTrees ss)).plain
  | .statement => ∃ s : Statement, t = (node .statement [s.tree]).plain
  | .letStatement | .ifStatement | .whileStatement | .doStatement | .returnStatement =>
    ∃ s : Statement, t = s.tree.plain
  | .expression => ∃ e : Expression, t = e.tree.plain
  | .term => ∃ x : Term, t = x.tree.plain
  | .subroutineCall => ∃ callee arguments, t = (callTree callee arguments).plain
  | .expressionList => ∃ es, t = (node .expressionList (argumentTrees es)).plain
  | .op => ∃ operator : BinaryOperator, t = operator.tree
  | .unaryOp => ∃ operator : UnaryOperator, t = operator.tree
  | .keywordConstant => ∃ word : KeywordConstant, t = word.tree
  | .className | .varName => ∃ name, t = .name .varName name
  | .subroutineName => ∃ name, t = .name .subroutineName name

/-- The operators and operands after the first term of an expression. -/
theorem chain_trees (first : Expression) (os : List (BinaryOperator × Term)) :
    (Goal.chain first os).trees = first.trees ++ os.flatMap fun o => [o.1.tree, o.2.tree] := by
  induction os generalizing first with
  | nil => simp [Goal.chain]
  | cons o os ih =>
    rw [Goal.chain, List.foldl_cons, ← Goal.chain, ih]
    simp [Expression.trees, Term.tree]

theorem blockTrees_eq (ss : List Statement) : blockTrees ss = ss.map fun s => node .statement [s.tree] := by
  induction ss with
  | nil => rfl
  | cons s ss ih => rw [blockTrees, ih, List.map_cons]

theorem moreArgumentTrees_eq (es : List Expression) :
    moreArgumentTrees es = es.flatMap fun e => [.symbol ',', e.tree] := by
  induction es with
  | nil => rfl
  | cons e es ih => rw [moreArgumentTrees, ih]; rfl

namespace Nonterminal

section

variable {us : Forest}

/-- Trees of one part come from a list. -/
theorem exists_map_of_many {α : Type} {n : Nonterminal} {f : α → DerivationTree}
    (h : (Form.many (.part n)).Writes Means us) (hf : ∀ t, n.Means t → ∃ a, t = f a) : ∃ as : List α, us = as.map f := by
  obtain ⟨as, rfl⟩ := h.exists_flatMap (f := fun a => [f a]) fun vs hvs => by
    obtain ⟨t, ht, rfl⟩ := hvs
    obtain ⟨a, rfl⟩ := hf t ht
    exact ⟨a, rfl⟩
  exact ⟨as, List.map_eq_flatMap.symm⟩

/-- Names of variables, each after a comma. -/
theorem exists_moreNames (h : (Form.many (.all [.symbol ',', .part varName])).Writes Means us) :
    ∃ names : List String, us = names.flatMap fun name => [.symbol ',', .name varName name] := by
  refine h.exists_flatMap fun vs hvs => ?_
  simp only [Form.writes_all_symbol, Form.writes_all_part, Form.writes_all_nil, exists_eq_left] at hvs
  obtain ⟨-, ⟨-, ⟨name, rfl⟩, rfl⟩, rfl⟩ := hvs
  exact ⟨name, rfl⟩

/-- A type and its names are those of variables that are declared together. -/
theorem exists_namesOfType {t x : DerivationTree} (ht : type.Means t) (hx : varName.Means x)
    (h : (Form.many (.all [.symbol ',', .part varName])).Writes Means us) :
    ∃ d : NamesOfType, t :: x :: us = d.trees.map (·.plain) := by
  obtain ⟨type, rfl⟩ := ht
  obtain ⟨first, rfl⟩ := hx
  obtain ⟨others, rfl⟩ := exists_moreNames h
  exact ⟨⟨type, first, others⟩, by simp [NamesOfType.trees, List.map_flatMap, plain]⟩

/-- Types with names, each after a comma, are parameters. -/
theorem exists_moreParameters (h : (Form.many (.all [.symbol ',', .part type, .part varName])).Writes Means us) :
    ∃ ps : List Parameter, us = ps.flatMap fun p => .symbol ',' :: p.trees.map (·.plain) := by
  refine h.exists_flatMap fun vs hvs => ?_
  simp only [Form.writes_all_symbol, Form.writes_all_part, Form.writes_all_nil, exists_eq_left] at hvs
  obtain ⟨-, ⟨-, ⟨type, rfl⟩, -, ⟨-, ⟨name, rfl⟩, rfl⟩, rfl⟩, rfl⟩ := hvs
  exact ⟨⟨type, name⟩, by simp [Parameter.trees, plain]⟩

/-- Operators with terms are the operations after a first term. -/
theorem exists_operations (h : (Form.many (.all [.part op, .part term])).Writes Means us) :
    ∃ os : List (BinaryOperator × Term), us = os.flatMap fun o => [o.1.tree, o.2.tree.plain] := by
  refine h.exists_flatMap fun vs hvs => ?_
  simp only [Form.writes_all_part, Form.writes_all_nil, exists_eq_left] at hvs
  obtain ⟨-, ⟨operator, rfl⟩, -, ⟨-, ⟨operand, rfl⟩, rfl⟩, rfl⟩ := hvs
  exact ⟨(operator, operand), rfl⟩

/-- Expressions, each after a comma, are arguments. -/
theorem exists_moreArguments (h : (Form.many (.all [.symbol ',', .part expression])).Writes Means us) :
    ∃ es : List Expression, us = es.flatMap fun e => [.symbol ',', e.tree.plain] := by
  refine h.exists_flatMap fun vs hvs => ?_
  simp only [Form.writes_all_symbol, Form.writes_all_part, Form.writes_all_nil, exists_eq_left] at hvs
  obtain ⟨-, ⟨-, ⟨e, rfl⟩, rfl⟩, rfl⟩ := hvs
  exact ⟨e, rfl⟩

end

/-- The trees that a subroutine of any kind consists of make its tree. -/
theorem means_subroutineDec (kind : SubroutineKind) (type : Option TypeName) (name : String) (ps : List Parameter)
    (ds : List NamesOfType) (ss : List Statement) :
    subroutineDec.Means (node .subroutineDec
      [.keyword kind.keyword, (type.elim (.keyword .void) TypeName.tree).plain, .name .subroutineName name, .symbol '(',
        (node .parameterList (Parameter.listTrees ps)).plain, .symbol ')', (bodyTree ds ss).plain]) :=
  ⟨⟨kind, type, name, ps, ds, ss⟩, by simp [Subroutine.tree, plain]⟩

/-- What is written in the form of a part with the trees of parts is a tree of the part. -/
theorem means_of_writes {n : Nonterminal} {ts : Forest} (h : n.form.Writes Means ts) : n.Means (node n.plain ts) := by
  cases n <;> simp only [form, List.map_cons, List.map_nil, List.cons_append, List.nil_append, List.append_nil,
    Form.writes_keyword, Form.writes_symbol, Form.writes_identifier, Form.writes_integer, Form.writes_string,
    Form.writes_part, Form.writes_optional, Form.writes_any_cons, Form.writes_any_nil, Form.writes_all_nil,
    Form.writes_all_keyword, Form.writes_all_symbol, Form.writes_all_part, Form.writes_all_any_nil,
    Form.writes_all_any_cons, Form.writes_all_optional, Form.writes_all_all, Form.writes_all_many,
    exists_eq_left, exists_eq_right', existsAndEq, and_true, or_false] at h
  case «class» =>
    obtain ⟨-, us, vs, ⟨⟨name, rfl⟩, hds, hss⟩, rfl⟩ := h
    obtain ⟨ds, rfl⟩ := exists_map_of_many hds fun _ ht => ht
    obtain ⟨ss, rfl⟩ := exists_map_of_many hss fun _ ht => ht
    exact ⟨⟨name, ds, ss⟩, by simp [ClassDeclaration.tree, bracedTrees, plain, Function.comp_def]⟩
  case classVarDec =>
    rcases h with ⟨t, x, us, ⟨ht, hx, hus⟩, rfl⟩ | ⟨t, x, us, ⟨ht, hx, hus⟩, rfl⟩
    · obtain ⟨d, hd⟩ := exists_namesOfType ht hx hus
      exact ⟨⟨.static, d⟩, by simp [ClassVariables.tree, ← hd, plain]; rfl⟩
    · obtain ⟨d, hd⟩ := exists_namesOfType ht hx hus
      exact ⟨⟨.field, d⟩, by simp [ClassVariables.tree, ← hd, plain]; rfl⟩
  case type =>
    rcases h with rfl | rfl | rfl | ⟨-, ⟨name, rfl⟩, rfl⟩
    · exact ⟨.int, rfl⟩
    · exact ⟨.char, rfl⟩
    · exact ⟨.boolean, rfl⟩
    · exact ⟨.ofClass name, rfl⟩
  case subroutineDec =>
    rcases h with ⟨us, hus, rfl⟩ | ⟨us, hus, rfl⟩ | ⟨us, hus, rfl⟩ <;>
      rcases hus with ⟨-, -, -, ⟨⟨name, rfl⟩, ⟨ps, rfl⟩, ds, ss, rfl⟩, rfl⟩ |
        ⟨-, ⟨type, rfl⟩, -, -, -, ⟨⟨name, rfl⟩, ⟨ps, rfl⟩, ds, ss, rfl⟩, rfl⟩
    · exact means_subroutineDec .constructor none name ps ds ss
    · exact means_subroutineDec .constructor (some type) name ps ds ss
    · exact means_subroutineDec .function none name ps ds ss
    · exact means_subroutineDec .function (some type) name ps ds ss
    · exact means_subroutineDec .method none name ps ds ss
    · exact means_subroutineDec .method (some type) name ps ds ss
  case parameterList =>
    rcases h with rfl | ⟨-, ⟨type, rfl⟩, -, us, ⟨⟨name, rfl⟩, hus⟩, rfl⟩
    · exact ⟨[], rfl⟩
    · obtain ⟨ps, rfl⟩ := exists_moreParameters hus
      exact ⟨⟨type, name⟩ :: ps, by simp [Parameter.listTrees, Parameter.trees, List.map_flatMap, plain]⟩
  case subroutineBody =>
    obtain ⟨us, -, ⟨hus, ss, rfl⟩, rfl⟩ := h
    obtain ⟨ds, rfl⟩ := exists_map_of_many hus fun _ ht => ht
    exact ⟨ds, ss, by simp [bodyTree, bracedTrees, plain, Function.comp_def]⟩
  case varDec =>
    obtain ⟨t, x, us, ⟨ht, hx, hus⟩, rfl⟩ := h
    obtain ⟨d, hd⟩ := exists_namesOfType ht hx hus
    exact ⟨d, by simp [localTree, ← hd, plain]⟩
  case statements =>
    obtain ⟨ss, rfl⟩ := exists_map_of_many h fun _ ht => ht
    exact ⟨ss, by simp [blockTrees_eq, plain, Function.comp_def]⟩
  case statement =>
    rcases h with ⟨-, ⟨s, rfl⟩, rfl⟩ | ⟨-, ⟨s, rfl⟩, rfl⟩ | ⟨-, ⟨s, rfl⟩, rfl⟩ | ⟨-, ⟨s, rfl⟩, rfl⟩ | ⟨-, ⟨s, rfl⟩, rfl⟩
    all_goals exact ⟨s, by simp [plain]⟩
  case letStatement =>
    obtain ⟨-, us, ⟨⟨name, rfl⟩, ⟨-, ⟨value, rfl⟩, rfl⟩ | ⟨-, -, ⟨⟨index, rfl⟩, value, rfl⟩, rfl⟩⟩, rfl⟩ := h
    · exact ⟨.let name value, by simp [Statement.tree, plain]⟩
    · exact ⟨.letElement name index value, by simp [Statement.tree, plain]⟩
  case ifStatement =>
    obtain ⟨-, -, us, ⟨⟨condition, rfl⟩, ⟨block, rfl⟩, rfl | ⟨-, ⟨elseBlock, rfl⟩, rfl⟩⟩, rfl⟩ := h
    · exact ⟨.if condition block, by simp [Statement.tree, conditionTrees, bracedTrees, plain]⟩
    · exact ⟨.ifElse condition block elseBlock, by simp [Statement.tree, conditionTrees, bracedTrees, plain]⟩
  case whileStatement =>
    obtain ⟨-, -, ⟨⟨condition, rfl⟩, block, rfl⟩, rfl⟩ := h
    exact ⟨.while condition block, by simp [Statement.tree, conditionTrees, bracedTrees, plain]⟩
  case doStatement =>
    obtain ⟨-, ⟨callee, arguments, rfl⟩, rfl⟩ := h
    exact ⟨.do callee arguments, by simp [Statement.tree, plain]⟩
  case returnStatement =>
    obtain ⟨us, rfl | ⟨-, ⟨value, rfl⟩, rfl⟩, rfl⟩ := h
    · exact ⟨.return none, by simp [Statement.tree, plain]⟩
    · exact ⟨.return (some value), by simp [Statement.tree, plain]⟩
  case expression =>
    obtain ⟨-, ⟨t, rfl⟩, us, hus, rfl⟩ := h
    obtain ⟨os, rfl⟩ := exists_operations hus
    exact ⟨Goal.chain (.term t) os, by
      simp [Expression.tree, chain_trees, Expression.trees, Term.tree, BinaryOperator.tree, List.map_flatMap, plain]⟩
  case term =>
    rcases h with ⟨value, rfl⟩ | ⟨body, rfl⟩ | ⟨-, ⟨word, rfl⟩, rfl⟩ | ⟨-, ⟨name, rfl⟩, rfl⟩ |
      ⟨-, ⟨name, rfl⟩, -, ⟨index, rfl⟩, rfl⟩ | ⟨-, ⟨callee, arguments, rfl⟩, rfl⟩ | ⟨-, ⟨inner, rfl⟩, rfl⟩ |
      ⟨-, ⟨operator, rfl⟩, -, ⟨operand, rfl⟩, rfl⟩
    · exact ⟨.integer value, by simp [Term.tree, Term.trees, plain]⟩
    · exact ⟨.string body, by simp [Term.tree, Term.trees, plain]⟩
    · exact ⟨.constant word, by simp [Term.tree, Term.trees, KeywordConstant.tree, plain]⟩
    · exact ⟨.variable name, by simp [Term.tree, Term.trees, plain]⟩
    · exact ⟨.element name index, by simp [Term.tree, Term.trees, Expression.tree, plain]⟩
    · exact ⟨.call callee arguments, by simp [Term.tree, Term.trees, callTree, plain]⟩
    · exact ⟨.parenthesized inner, by simp [Term.tree, Term.trees, Expression.tree, plain]⟩
    · exact ⟨.unary operator operand, by simp [Term.tree, Term.trees, UnaryOperator.tree, plain]⟩
  case subroutineCall =>
    rcases h with ⟨-, ⟨name, rfl⟩, -, ⟨es, rfl⟩, rfl⟩ | ⟨-, ⟨qualifier, rfl⟩, -, -, ⟨⟨name, rfl⟩, es, rfl⟩, rfl⟩ |
      ⟨-, ⟨qualifier, rfl⟩, -, -, ⟨⟨name, rfl⟩, es, rfl⟩, rfl⟩
    · exact ⟨.own name, es, by simp [callTree, Callee.trees, plain]⟩
    all_goals exact ⟨.qualified qualifier name, es, by simp [callTree, Callee.trees, plain]⟩
  case expressionList =>
    rcases h with rfl | ⟨-, ⟨e, rfl⟩, us, hus, rfl⟩
    · exact ⟨[], rfl⟩
    · obtain ⟨es, rfl⟩ := exists_moreArguments hus
      exact ⟨e :: es, by simp [argumentTrees, moreArgumentTrees_eq, Expression.tree, List.map_flatMap, plain]⟩
  case op =>
    rcases h with rfl | rfl | rfl | rfl | rfl | rfl | rfl | rfl | rfl
    · exact ⟨.add, rfl⟩
    · exact ⟨.subtract, rfl⟩
    · exact ⟨.multiply, rfl⟩
    · exact ⟨.divide, rfl⟩
    · exact ⟨.and, rfl⟩
    · exact ⟨.or, rfl⟩
    · exact ⟨.less, rfl⟩
    · exact ⟨.greater, rfl⟩
    · exact ⟨.equal, rfl⟩
  case unaryOp =>
    rcases h with rfl | rfl
    · exact ⟨.negate, rfl⟩
    · exact ⟨.complement, rfl⟩
  case keywordConstant =>
    rcases h with rfl | rfl | rfl | rfl
    · exact ⟨.true, rfl⟩
    · exact ⟨.false, rfl⟩
    · exact ⟨.null, rfl⟩
    · exact ⟨.this, rfl⟩
  case className | varName | subroutineName =>
    obtain ⟨name, rfl⟩ := h
    exact ⟨name, rfl⟩

end Nonterminal

/-- A licensed tree is a tree of the part at its root. -/
theorem DerivationTree.Licensed.means {t : DerivationTree} (h : t.Licensed) {n : Nonterminal} (hn : Stands n t) :
    n.Means t.plain := by
  induction h generalizing n with
  | token kind => cases hn
  | node written _ ih =>
    cases hn
    rw [DerivationTree.plain_node]
    exact Nonterminal.means_of_writes (written.map DerivationTree.plain_token fun m t ht hm => ih t ht hm)

/-- A derivation tree of a class is the tree of the class, up to what a name stands for. -/
theorem DerivationTree.Derives.exists_class {t : DerivationTree} (h : t.Derives .«class») :
    ∃ c : ClassDeclaration, t.plain = c.tree.plain :=
  h.licensed.means h.root

/-! ## Every class has a derivation tree -/

open DerivationTree (licensed_node_iff licensed_token)

@[simp] theorem licensed_className (text : String) : (DerivationTree.name .className text).Licensed := by
  simp [licensed_node_iff, Nonterminal.form]

@[simp] theorem licensed_varName (text : String) : (DerivationTree.name .varName text).Licensed := by
  simp [licensed_node_iff, Nonterminal.form]

@[simp] theorem licensed_subroutineName (text : String) : (DerivationTree.name .subroutineName text).Licensed := by
  simp [licensed_node_iff, Nonterminal.form]

@[simp] theorem UnaryOperator.tree_licensed (operator : UnaryOperator) : operator.tree.Licensed := by
  cases operator <;> simp [UnaryOperator.tree, licensed_node_iff, Nonterminal.form, UnaryOperator.symbol]

@[simp] theorem BinaryOperator.tree_licensed (operator : BinaryOperator) : operator.tree.Licensed := by
  cases operator <;> simp [BinaryOperator.tree, licensed_node_iff, Nonterminal.form, BinaryOperator.symbol]

@[simp] theorem KeywordConstant.tree_licensed (word : KeywordConstant) : word.tree.Licensed := by
  cases word <;> simp [KeywordConstant.tree, licensed_node_iff, Nonterminal.form, KeywordConstant.keyword]

theorem Callee.trees_licensed (callee : Callee) : ∀ t ∈ callee.trees, t.Licensed := by
  cases callee <;> simp [Callee.trees]

/-- Arguments are written in their form. -/
theorem argumentTrees_written (es : List Expression) : (Nonterminal.form .expressionList).Writes Stands (argumentTrees es) := by
  cases es with
  | nil => simp [Nonterminal.form, argumentTrees]
  | cons e es =>
    have more : (Form.many (.all [.symbol ',', .part .expression])).Writes Stands (moreArgumentTrees es) := by
      rw [moreArgumentTrees_eq]
      exact Form.writes_many_flatMap es fun e _ => by simp [Expression.tree]
    simpa [Nonterminal.form, argumentTrees] using more

/-- A call is licensed if its arguments are. -/
theorem licensed_call (callee : Callee) {arguments : List Expression}
    (h : ∀ t ∈ argumentTrees arguments, t.Licensed) : (callTree callee arguments).Licensed := by
  have list : (node .expressionList (argumentTrees arguments)).Licensed :=
    licensed_node_iff.mpr ⟨argumentTrees_written arguments, h⟩
  rw [callTree, licensed_node_iff]
  constructor
  · cases callee <;> simp [Nonterminal.form, Callee.trees]
  · rw [List.forall_mem_append]
    exact ⟨callee.trees_licensed, by simp [list]⟩

mutual

/-- The tree of an expression is licensed. -/
theorem Expression.tree_licensed (e : Expression) : e.tree.Licensed := by
  cases e with
  | term t =>
    have inner : (node .term t.trees).Licensed := t.tree_licensed
    rw [Expression.tree, licensed_node_iff]
    simp [Expression.trees, Nonterminal.form, inner]
  | binary left operator right =>
    have operand : (node .term right.trees).Licensed := right.tree_licensed
    have leans := left.tree_licensed
    rw [Expression.tree, licensed_node_iff, Nonterminal.form, Form.writes_all_part] at leans ⊢
    obtain ⟨⟨t, ht, us, hus, hleft⟩, licensed⟩ := leans
    constructor
    · rw [Form.writes_all_many] at hus
      obtain ⟨us, hus, vs, rfl, rfl⟩ := hus
      have next : (Form.all [.part .op, .part .term]).Writes Stands [operator.tree, node .term right.trees] := by
        simp [BinaryOperator.tree]
      have more := Form.writes_many_append hus next
      exact ⟨t, ht, _, by simpa using more, by simp [Expression.trees, hleft]⟩
    · rw [Expression.trees, List.forall_mem_append]
      exact ⟨licensed, by simp [operand]⟩

/-- The tree of a term is licensed. -/
theorem Term.tree_licensed (t : Term) : t.tree.Licensed := by
  rw [Term.tree, licensed_node_iff]
  cases t with
  | integer | string | «variable» => simp [Term.trees, Nonterminal.form]
  | constant word =>
    have stands : Stands .keywordConstant word.tree := rfl
    simp [Term.trees, Nonterminal.form, stands]
  | element name index =>
    have inner : (node .expression index.trees).Licensed := index.tree_licensed
    simp [Term.trees, Nonterminal.form, inner]
  | call callee arguments =>
    have inner : (callTree callee arguments).Licensed := licensed_call callee (argumentTrees_licensed arguments)
    have stands : Stands .subroutineCall (callTree callee arguments) := rfl
    rw [Term.trees, ← callTree]
    simp [Nonterminal.form, inner, stands]
  | parenthesized inner =>
    have inner : (node .expression inner.trees).Licensed := inner.tree_licensed
    simp [Term.trees, Nonterminal.form, inner]
  | unary operator operand =>
    have inner : (node .term operand.trees).Licensed := operand.tree_licensed
    have stands : Stands .unaryOp operator.tree := rfl
    simp [Term.trees, Nonterminal.form, inner, stands]

/-- The trees of arguments are licensed. -/
theorem argumentTrees_licensed (arguments : List Expression) : ∀ t ∈ argumentTrees arguments, t.Licensed := by
  cases arguments with
  | nil => exact List.forall_mem_nil _
  | cons argument others =>
    have inner : (node .expression argument.trees).Licensed := argument.tree_licensed
    rw [argumentTrees, List.forall_mem_cons]
    exact ⟨inner, moreArgumentTrees_licensed others⟩

/-- The trees of arguments after the first are licensed. -/
theorem moreArgumentTrees_licensed (arguments : List Expression) : ∀ t ∈ moreArgumentTrees arguments, t.Licensed := by
  cases arguments with
  | nil => exact List.forall_mem_nil _
  | cons argument others =>
    have inner : (node .expression argument.trees).Licensed := argument.tree_licensed
    rw [moreArgumentTrees, List.forall_mem_cons, List.forall_mem_cons]
    exact ⟨licensed_token _, inner, moreArgumentTrees_licensed others⟩

end

@[simp] theorem stands_expression (e : Expression) : Stands .expression e.tree := rfl

@[simp] theorem stands_call (callee : Callee) (arguments : List Expression) :
    Stands .subroutineCall (callTree callee arguments) := rfl

/-- A statement is one of five. -/
theorem Statement.tree_written (s : Statement) : (Nonterminal.form .statement).Writes Stands [s.tree] := by
  cases s <;> simp [Nonterminal.form, Statement.tree]

/-- A block is licensed if its statements are. -/
theorem licensed_block {ss : List Statement} (h : ∀ t ∈ blockTrees ss, t.Licensed) :
    (node .statements (blockTrees ss)).Licensed := by
  rw [licensed_node_iff]
  refine ⟨?_, h⟩
  rw [blockTrees_eq]
  exact Form.writes_many_map ss fun s => DerivationTree.stands_node.mpr rfl

mutual

/-- The tree of a statement is licensed. -/
theorem Statement.tree_licensed (s : Statement) : s.tree.Licensed := by
  cases s with
  | «let» name value => simp [Statement.tree, licensed_node_iff, Nonterminal.form, value.tree_licensed]
  | letElement name index value =>
    simp [Statement.tree, licensed_node_iff, Nonterminal.form, index.tree_licensed, value.tree_licensed]
  | «if» condition block | «while» condition block =>
    have inner := licensed_block (blockTrees_licensed block)
    rw [Statement.tree, licensed_node_iff]
    simp [Nonterminal.form, conditionTrees, bracedTrees, condition.tree_licensed, inner]
  | ifElse condition block elseBlock =>
    have inner := licensed_block (blockTrees_licensed block)
    have other := licensed_block (blockTrees_licensed elseBlock)
    rw [Statement.tree, licensed_node_iff]
    simp [Nonterminal.form, conditionTrees, bracedTrees, condition.tree_licensed, inner, other]
  | «do» callee arguments =>
    have inner := licensed_call callee (argumentTrees_licensed arguments)
    simp [Statement.tree, licensed_node_iff, Nonterminal.form, inner]
  | «return» value =>
    cases value with
    | none => simp [Statement.tree, licensed_node_iff, Nonterminal.form]
    | some value => simp [Statement.tree, licensed_node_iff, Nonterminal.form, value.tree_licensed]

/-- The trees of statements are licensed. -/
theorem blockTrees_licensed (ss : List Statement) : ∀ t ∈ blockTrees ss, t.Licensed := by
  cases ss with
  | nil => exact List.forall_mem_nil _
  | cons s ss =>
    rw [blockTrees, List.forall_mem_cons]
    exact ⟨licensed_node_iff.mpr ⟨s.tree_written, List.forall_mem_singleton.mpr s.tree_licensed⟩,
      blockTrees_licensed ss⟩

end

@[simp] theorem stands_type (type : TypeName) : Stands .type type.tree := by
  cases type <;> rfl

@[simp] theorem TypeName.tree_licensed (type : TypeName) : type.tree.Licensed := by
  cases type <;> simp [TypeName.tree, licensed_node_iff, Nonterminal.form]

/-- More names are written in their form, each with its comma. -/
theorem moreNames_written (names : List String) :
    (Form.many (.all [.symbol ',', .part .varName])).Writes Stands
      (names.flatMap fun name => [.symbol ',', .name .varName name]) :=
  Form.writes_many_flatMap names fun name _ => by simp

theorem NamesOfType.trees_licensed (d : NamesOfType) : ∀ t ∈ d.trees, t.Licensed := by
  simp only [NamesOfType.trees, List.forall_mem_cons, List.forall_mem_flatMap]
  exact ⟨d.type.tree_licensed, licensed_varName _, fun name _ => by simp⟩

theorem ClassVariables.tree_licensed (d : ClassVariables) : d.tree.Licensed := by
  rw [ClassVariables.tree, licensed_node_iff, List.cons_append, List.forall_mem_cons, List.forall_mem_append]
  refine ⟨?_, licensed_token _, d.names.trees_licensed, by simp⟩
  have more := moreNames_written d.names.others
  cases h : d.kind <;> simp [Nonterminal.form, NamesOfType.trees, ClassVariableKind.keyword, more]

theorem localTree_licensed (d : NamesOfType) : (localTree d).Licensed := by
  rw [localTree, licensed_node_iff, List.cons_append, List.forall_mem_cons, List.forall_mem_append]
  refine ⟨?_, licensed_token _, d.trees_licensed, by simp⟩
  have more := moreNames_written d.others
  simp [Nonterminal.form, NamesOfType.trees, more]

/-- The tree of parameters is licensed. -/
theorem licensed_parameters (ps : List Parameter) : (node .parameterList (Parameter.listTrees ps)).Licensed := by
  rw [licensed_node_iff]
  cases ps with
  | nil => simp [Nonterminal.form, Parameter.listTrees]
  | cons p ps =>
    have more : (Form.many (.all [.symbol ',', .part .type, .part .varName])).Writes Stands
        (ps.flatMap fun p => .symbol ',' :: p.trees) :=
      Form.writes_many_flatMap ps fun p _ => by simp [Parameter.trees]
    have licensed (p : Parameter) : ∀ t ∈ p.trees, t.Licensed := by simp [Parameter.trees]
    rw [Parameter.listTrees, List.forall_mem_append, List.forall_mem_flatMap]
    refine ⟨?_, licensed p, fun p _ => ?_⟩
    · simpa [Nonterminal.form, Parameter.trees] using more
    · rw [List.forall_mem_cons]
      exact ⟨licensed_token _, licensed p⟩

/-- The tree of a subroutine's body is licensed. -/
theorem bodyTree_licensed (ds : List NamesOfType) (ss : List Statement) : (bodyTree ds ss).Licensed := by
  have block : (node .statements (blockTrees ss)).Licensed := licensed_block (blockTrees_licensed ss)
  have locals : (Form.many (.part .varDec)).Writes Stands (ds.map localTree) :=
    Form.writes_many_map ds fun d => DerivationTree.stands_node.mpr rfl
  rw [bodyTree, bracedTrees, licensed_node_iff, List.cons_append, List.forall_mem_cons, List.forall_mem_append,
    List.forall_mem_append, List.forall_mem_map]
  refine ⟨?_, licensed_token _, ⟨fun d _ => localTree_licensed d, by simp [block]⟩, by simp⟩
  simp only [Nonterminal.form, Form.writes_all_symbol, Form.writes_all_many, Form.writes_all_part, Form.writes_all_nil]
  exact ⟨_, ⟨_, locals, _, ⟨node .statements (blockTrees ss), DerivationTree.stands_node.mpr rfl, _, ⟨_, rfl, rfl⟩, rfl⟩,
    rfl⟩, by simp⟩

theorem SubroutineKind.keyword_written (kind : SubroutineKind) :
    (Form.any [.keyword .constructor, .keyword .function, .keyword .method]).Writes Stands [.keyword kind.keyword] := by
  cases kind <;> simp [SubroutineKind.keyword]

theorem resultType_written (type : Option TypeName) :
    (Form.any [.keyword .void, .part .type]).Writes Stands [type.elim (.keyword .void) TypeName.tree] := by
  cases type <;> simp

theorem resultType_licensed (type : Option TypeName) : (type.elim (.keyword .void) TypeName.tree).Licensed := by
  cases type with
  | none => exact licensed_token _
  | some type => exact type.tree_licensed

theorem Subroutine.tree_licensed (s : Subroutine) : s.tree.Licensed := by
  have parameters := licensed_parameters s.parameters
  have body := bodyTree_licensed s.locals s.body
  have stands : Stands .subroutineBody (bodyTree s.locals s.body) := rfl
  rw [Subroutine.tree, licensed_node_iff]
  constructor
  · have later : (Form.all [.part .subroutineName, .symbol '(', .part .parameterList, .symbol ')',
        .part .subroutineBody]).Writes Stands [.name .subroutineName s.name, .symbol '(',
          node .parameterList (Parameter.listTrees s.parameters), .symbol ')', bodyTree s.locals s.body] := by
      simp [stands]
    exact ⟨[_], _, s.kind.keyword_written, ⟨[_], _, resultType_written s.resultType, later, rfl⟩, rfl⟩
  · simp [resultType_licensed, parameters, body]

/-- The tree of a class is a derivation tree of a class. -/
theorem ClassDeclaration.tree_derives (c : ClassDeclaration) : c.tree.Derives .«class» := by
  have declarations : (Form.many (.part .classVarDec)).Writes Stands (c.declarations.map ClassVariables.tree) :=
    Form.writes_many_map _ fun d => DerivationTree.stands_node.mpr rfl
  have subroutines : (Form.many (.part .subroutineDec)).Writes Stands (c.subroutines.map Subroutine.tree) :=
    Form.writes_many_map _ fun s => DerivationTree.stands_node.mpr rfl
  refine ⟨DerivationTree.stands_node.mpr rfl, ?_⟩
  rw [ClassDeclaration.tree, bracedTrees, licensed_node_iff, List.forall_mem_cons, List.forall_mem_cons,
    List.cons_append, List.forall_mem_cons, List.forall_mem_append, List.forall_mem_append, List.forall_mem_map,
    List.forall_mem_map]
  constructor
  · simp only [Nonterminal.form, Form.writes_all_keyword, Form.writes_all_symbol, Form.writes_all_many,
      Form.writes_all_part, Form.writes_all_nil]
    exact ⟨_, ⟨.name .className c.name, DerivationTree.stands_node.mpr rfl, _, ⟨_, ⟨_, declarations, _, ⟨_, subroutines,
      _, ⟨_, rfl, rfl⟩, rfl⟩, rfl⟩, rfl⟩, rfl⟩, by simp⟩
  · exact ⟨licensed_token _, licensed_className _, licensed_token _,
      ⟨fun d _ => d.tree_licensed, fun s _ => s.tree_licensed⟩, by simp⟩

end JackCompiler

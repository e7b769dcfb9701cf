import JackCompiler.Proofs.Grammar.Soundness
import JackCompiler.Proofs.Grammar.WalkStatement

/-!
# A class is written in its own way only

Different classes have different tokens. Where a part of a class ends is told by what may not come after it, so two parts
with their tokens and something after them are the same part with the same after it: one lemma a part, each in the form
`kinds ++ u = kinds' ++ v`. For expressions the walk has found the end already (`Term.end_eq`, `Expression.end_eq`); what is
left there is an induction on the number of tokens, since an expression leans to the left. Main statement:
`ClassDeclaration.eq_of_kinds`.
-/

namespace JackCompiler

variable {u v : List TokenKind}

/-! ## Where expressions end -/

theorem unplaced_inj (h : unplaced u = unplaced v) : u = v := by
  rw [← map_kind_unplaced u, h, map_kind_unplaced]

/-- Where walks with the same goals end, the same tokens are left of the same tokens. -/
theorem eq_of_walks {goals : List Goal} {ks ks' : List TokenKind} {steps steps' : Array Step}
    (hu : walkFrom .nowhere goals (unplaced ks ++ unplaced u) #[] = ⟨steps, .ok (unplaced u)⟩)
    (hv : walkFrom .nowhere goals (unplaced ks' ++ unplaced v) #[] = ⟨steps', .ok (unplaced v)⟩)
    (h : ks ++ u = ks' ++ v) : u = v := by
  rw [← unplaced_append, h, unplaced_append, hv, Walk.mk.injEq, Except.ok.injEq] at hu
  exact (unplaced_inj hu.2).symm

/-- A term ends where the walk through it ends. -/
theorem Term.end_eq {t t' : Term} (hu : EndsTerm (unplaced u)) (hv : EndsTerm (unplaced v))
    (h : t.kinds ++ u = t'.kinds ++ v) : t.kinds = t'.kinds ∧ u = v := by
  have walk (t : Term) {w : List TokenKind} (hw : EndsTerm (unplaced w)) :
      walkFrom .nowhere [.term] (unplaced t.kinds ++ unplaced w) #[] =
        ⟨(#[] : Array Step) ++ t.steps, .ok (unplaced w)⟩ := by
    rw [t.walk hw, walkFrom_nil]
  obtain rfl := eq_of_walks (walk t hu) (walk t' hv) h
  exact ⟨List.append_cancel_right h, rfl⟩

/-- An expression ends where the walk through it ends. -/
theorem Expression.end_eq {e e' : Expression} (hu : EndsExpression (unplaced u)) (hv : EndsExpression (unplaced v))
    (h : e.kinds ++ u = e'.kinds ++ v) : e.kinds = e'.kinds ∧ u = v := by
  have walk (e : Expression) {w : List TokenKind} (hw : EndsExpression (unplaced w)) :
      walkFrom .nowhere [.expression] (unplaced e.kinds ++ unplaced w) #[] =
        ⟨(#[] : Array Step) ++ e.steps, .ok (unplaced w)⟩ := by
    rw [e.walk hw, walkFrom_nil]
  obtain rfl := eq_of_walks (walk e hu) (walk e' hv) h
  exact ⟨List.append_cancel_right h, rfl⟩

/-- Terms with the same tokens go through the same steps. -/
theorem Term.innerSteps_eq {t t' : Term} (h : t.kinds = t'.kinds) : t.innerSteps = t'.innerSteps := by
  have walk (t : Term) :
      walkFrom .nowhere [.operand] (unplaced t.kinds ++ []) #[] = ⟨(#[] : Array Step) ++ t.innerSteps, .ok []⟩ := by
    rw [t.walk_inner (by simp [EndsTerm]), walkFrom_nil]
  have both := walk t
  rw [h, walk t', Walk.mk.injEq] at both
  simpa using both.1.symm

/-! ## Parts that repeat -/

/-- Parts one after another are told apart when each is told apart from what comes after it: `starts` says what kinds of
tokens they begin with, and nothing of that kind comes after the last one. -/
theorem flatMap_append_inj {α : Type} {kinds : α → List TokenKind} (starts : TokenKind → Prop)
    (begins : ∀ a, ∃ kind rest, kinds a = kind :: rest ∧ starts kind)
    (apart : ∀ a b u v, kinds a ++ u = kinds b ++ v → a = b ∧ u = v) (hu : ∀ kind ∈ u.head?, ¬starts kind)
    (hv : ∀ kind ∈ v.head?, ¬starts kind) {as bs : List α} (h : as.flatMap kinds ++ u = bs.flatMap kinds ++ v) :
    as = bs ∧ u = v := by
  have one (a : α) (w : List TokenKind) : ∃ kind ∈ (kinds a ++ w).head?, starts kind := by
    obtain ⟨kind, rest, hk, hs⟩ := begins a
    exact ⟨kind, by rw [hk]; rfl, hs⟩
  induction as generalizing bs with
  | nil =>
    cases bs with
    | nil => exact ⟨rfl, h⟩
    | cons b bs =>
      obtain ⟨kind, hk, hs⟩ := one b (bs.flatMap kinds ++ v)
      rw [List.flatMap_nil, List.nil_append, List.flatMap_cons, List.append_assoc] at h
      rw [← h] at hk
      exact absurd hs (hu kind hk)
  | cons a as ih =>
    rw [List.flatMap_cons, List.append_assoc] at h
    cases bs with
    | nil =>
      obtain ⟨kind, hk, hs⟩ := one a (as.flatMap kinds ++ u)
      rw [h] at hk
      exact absurd hs (hv kind hk)
    | cons b bs =>
      rw [List.flatMap_cons, List.append_assoc] at h
      obtain ⟨rfl, htail⟩ := apart a b _ _ h
      obtain ⟨rfl, rfl⟩ := ih htail
      exact ⟨rfl, rfl⟩

/-! ## Expressions -/

theorem BinaryOperator.eq_of_symbol {operator operator' : BinaryOperator} (h : operator.symbol = operator'.symbol) :
    operator = operator' := by
  cases operator <;> cases operator' <;> first | rfl | cases h

/-- Every expression is a first term and operators, each with its operand. -/
theorem Expression.exists_chain (e : Expression) : ∃ t os, e = Goal.chain (.term t) os := by
  induction e using Expression.rec (motive_2 := fun _ => True) (motive_3 := fun _ => True) with
  | term t => exact ⟨t, [], rfl⟩
  | binary left operator right ih =>
    obtain ⟨t, os, rfl⟩ := ih
    exact ⟨t, os ++ [(operator, right)], by simp [Goal.chain]⟩
  | _ => trivial

/-- Terms and expressions with fewer than `n` tokens are told apart by their tokens. -/
structure ToldApart (n : Nat) : Prop where
  term : ∀ t t' : Term, t.kinds.length < n → t.kinds = t'.kinds → t = t'
  expression : ∀ e e' : Expression, e.kinds.length < n → e.kinds = e'.kinds → e = e'

/-- The kinds of tokens of operators, each with its operand. -/
def operationKinds (os : List (BinaryOperator × Term)) : List TokenKind :=
  os.flatMap fun o => .symbol o.1.symbol :: o.2.kinds

theorem operationKinds_cons (operator : BinaryOperator) (t : Term) (os : List (BinaryOperator × Term)) :
    operationKinds ((operator, t) :: os) = .symbol operator.symbol :: (t.kinds ++ operationKinds os) := rfl

theorem endsTerm_operations (os : List (BinaryOperator × Term)) : EndsTerm (unplaced (operationKinds os)) := by
  cases os with
  | nil => simp [EndsTerm, operationKinds]
  | cons o os => exact endsTerm_operator o.1 _

theorem endsExpression_moreArguments (es : List Expression) : EndsExpression (unplaced (moreArgumentKinds es)) := by
  cases es with
  | nil => simp [EndsExpression, EndsTerm, moreArgumentKinds]
  | cons e es => exact endsExpression_comma _

namespace ToldApart

variable {n : Nat}

/-- Arguments after the first are told apart when expressions with no more tokens are. -/
theorem moreArguments (h : ToldApart n) (es es' : List Expression) (hl : (moreArgumentKinds es).length < n)
    (he : moreArgumentKinds es = moreArgumentKinds es') : es = es' := by
  induction es generalizing es' with
  | nil => cases es' <;> simp_all [moreArgumentKinds]
  | cons e es ih =>
    cases es' with
    | nil => simp [moreArgumentKinds] at he
    | cons e' es' =>
      simp only [moreArgumentKinds, List.cons_append, List.length_cons, List.length_append] at hl
      simp only [moreArgumentKinds, List.cons_append, List.cons.injEq, true_and] at he
      obtain ⟨hk, hks⟩ := Expression.end_eq (endsExpression_moreArguments es) (endsExpression_moreArguments es') he
      rw [h.expression e e' (by omega) hk, ih es' (by omega) hks]

/-- Arguments are told apart when expressions with no more tokens are. -/
theorem arguments (h : ToldApart n) (es es' : List Expression) (hl : (argumentKinds es).length < n)
    (he : argumentKinds es = argumentKinds es') : es = es' := by
  cases es with
  | nil =>
    cases es' with
    | nil => rfl
    | cons e' es' =>
      obtain ⟨kind, kinds, hk, -⟩ := e'.kinds_eq_cons
      simp [argumentKinds, hk] at he
  | cons e es =>
    cases es' with
    | nil =>
      obtain ⟨kind, kinds, hk, -⟩ := e.kinds_eq_cons
      simp [argumentKinds, hk] at he
    | cons e' es' =>
      simp only [argumentKinds, List.length_append] at hl he
      obtain ⟨hk, hks⟩ := Expression.end_eq (endsExpression_moreArguments es) (endsExpression_moreArguments es') he
      rw [h.expression e e' (by omega) hk, h.moreArguments es es' (by omega) hks]

/-- Terms are told apart when their parts are: the first step tells which of the eight forms a term has. -/
theorem term_succ (h : ToldApart n) (t t' : Term) (hl : t.kinds.length < n + 1) (ht : t.kinds = t'.kinds) : t = t' := by
  have hs := Term.innerSteps_eq ht
  cases t <;> cases t' <;> simp only [Term.innerSteps, during, List.cons_append, List.cons.injEq, Step.integer.injEq,
    Step.string.injEq, Step.constant.injEq, Step.read.injEq, Step.use.injEq, Step.receiver.injEq, Step.enter.injEq,
    reduceCtorEq, false_and, true_and, and_true] at hs
  case integer.integer | string.string | constant.constant | variable.variable => rw [hs]
  case element.element name index _ index' =>
    obtain ⟨rfl, -⟩ := hs
    simp only [Term.kinds, List.cons_append, List.cons.injEq, true_and, List.append_cancel_right_eq] at ht
    simp only [Term.kinds, List.cons_append, List.length_cons, List.length_append] at hl
    rw [h.expression index index' (by omega) ht]
  case call.call callee es _ es' =>
    obtain ⟨rfl, -⟩ := hs
    simp only [Term.kinds, List.append_assoc, List.append_cancel_left_eq, List.cons_append, List.cons.injEq, true_and,
      List.append_cancel_right_eq] at ht
    simp only [Term.kinds, List.length_cons, List.length_append] at hl
    rw [h.arguments es es' (by omega) ht]
  case parenthesized.parenthesized inner inner' =>
    simp only [Term.kinds, List.cons_append, List.cons.injEq, true_and, List.append_cancel_right_eq] at ht
    simp only [Term.kinds, List.cons_append, List.length_cons, List.length_append] at hl
    rw [h.expression inner inner' (by omega) ht]
  case unary.unary operator operand operator' operand' =>
    have last : operator = operator' := by simpa using congrArg List.getLast? hs
    subst last
    simp only [Term.kinds, List.cons.injEq, true_and] at ht
    simp only [Term.kinds, List.length_cons] at hl
    rw [h.term operand operand' (by omega) ht]

/-- Operators with their operands are told apart when terms with no more tokens are. -/
theorem operations {m : Nat} (h : ∀ t t' : Term, t.kinds.length < m → t.kinds = t'.kinds → t = t')
    (os os' : List (BinaryOperator × Term)) (hl : (operationKinds os).length < m)
    (ho : operationKinds os = operationKinds os') : os = os' := by
  induction os generalizing os' with
  | nil => cases os' <;> simp_all [operationKinds]
  | cons o os ih =>
    cases os' with
    | nil => simp [operationKinds] at ho
    | cons o' os' =>
      obtain ⟨operator, t⟩ := o
      obtain ⟨operator', t'⟩ := o'
      rw [operationKinds_cons, List.length_cons, List.length_append] at hl
      rw [operationKinds_cons, operationKinds_cons, List.cons.injEq, TokenKind.symbol.injEq] at ho
      obtain ⟨hsymbol, hrest⟩ := ho
      obtain ⟨hk, hks⟩ := Term.end_eq (endsTerm_operations os) (endsTerm_operations os') hrest
      rw [BinaryOperator.eq_of_symbol hsymbol, h t t' (by omega) hk, ih os' (by omega) hks]

/-- Expressions are told apart when terms with no more tokens are. -/
theorem expression_of_term {m : Nat} (h : ∀ t t' : Term, t.kinds.length < m → t.kinds = t'.kinds → t = t')
    (e e' : Expression) (hl : e.kinds.length < m) (he : e.kinds = e'.kinds) : e = e' := by
  obtain ⟨t, os, rfl⟩ := e.exists_chain
  obtain ⟨t', os', rfl⟩ := e'.exists_chain
  have chained (t : Term) (os : List (BinaryOperator × Term)) :
      (Goal.chain (.term t) os).kinds = t.kinds ++ operationKinds os := by
    rw [Goal.chain_kinds, Expression.kinds, operationKinds]
  rw [chained, List.length_append] at hl
  rw [chained, chained] at he
  obtain ⟨hk, hks⟩ := Term.end_eq (endsTerm_operations os) (endsTerm_operations os') he
  rw [h t t' (by omega) hk, operations h os os' (by omega) hks]

end ToldApart

/-- All terms and expressions are told apart by their tokens. -/
theorem toldApart (n : Nat) : ToldApart n := by
  induction n with
  | zero => exact ⟨fun _ _ hl => absurd hl (Nat.not_lt_zero _), fun _ _ hl => absurd hl (Nat.not_lt_zero _)⟩
  | succ n ih => exact ⟨ih.term_succ, ToldApart.expression_of_term ih.term_succ⟩

/-- Expressions with what comes after them are told apart. -/
theorem Expression.eq_of_append {e e' : Expression} (hu : EndsExpression (unplaced u)) (hv : EndsExpression (unplaced v))
    (h : e.kinds ++ u = e'.kinds ++ v) : e = e' ∧ u = v := by
  obtain ⟨hk, rfl⟩ := Expression.end_eq hu hv h
  exact ⟨(toldApart _).expression e e' (Nat.lt_succ_self _) hk, rfl⟩

/-- An expression is told apart from the symbol that closes it. -/
theorem Expression.eq_of_closed {e e' : Expression} {c : Char}
    (hc : ∀ tokens : List Token, EndsExpression (⟨.symbol c, .nowhere⟩ :: tokens))
    (h : e.kinds ++ .symbol c :: u = e'.kinds ++ .symbol c :: v) : e = e' ∧ u = v := by
  obtain ⟨he, hrest⟩ := Expression.eq_of_append (u := .symbol c :: u) (v := .symbol c :: v) (hc _) (hc _) h
  exact ⟨he, (List.cons.inj hrest).2⟩

/-- A call is told apart from the semicolon after it: it is a term. -/
theorem call_eq_of_append {callee callee' : Callee} {es es' : List Expression}
    (h : callKinds callee es ++ .symbol ';' :: u = callKinds callee' es' ++ .symbol ';' :: v) :
    callee = callee' ∧ es = es' ∧ u = v := by
  have ends (w : List TokenKind) : EndsTerm (unplaced (.symbol ';' :: w)) := (endsExpression_semicolon _).1
  have terms : (Term.call callee es).kinds ++ .symbol ';' :: u = (Term.call callee' es').kinds ++ .symbol ';' :: v := h
  obtain ⟨hk, hrest⟩ := Term.end_eq (ends u) (ends v) terms
  have same := (toldApart _).term _ _ (Nat.lt_succ_self _) hk
  rw [Term.call.injEq] at same
  exact ⟨same.1, same.2, (List.cons.inj hrest).2⟩

/-! ## Statements -/

/-- The value of a `return` is told apart from the semicolon. -/
theorem result_eq_of_append {value value' : Option Expression}
    (h : value.elim [] Expression.kinds ++ .symbol ';' :: u = value'.elim [] Expression.kinds ++ .symbol ';' :: v) :
    value = value' ∧ u = v := by
  have absent (e : Expression) (u v : List TokenKind) : .symbol ';' :: u ≠ e.kinds ++ .symbol ';' :: v := by
    obtain ⟨kind, kinds, hk, ho⟩ := e.kinds_eq_cons
    rw [hk]
    rintro ⟨⟩
    cases ho
  cases value with
  | none =>
    cases value' with
    | none => exact ⟨rfl, (List.cons.inj h).2⟩
    | some e' => exact absurd h (absent e' u v)
  | some e =>
    cases value' with
    | none => exact absurd h.symm (absent e v u)
    | some e' =>
      obtain ⟨rfl, hrest⟩ := Expression.eq_of_closed (fun _ => endsExpression_semicolon _) h
      exact ⟨rfl, hrest⟩

/-- A condition is told apart from the block after it. -/
theorem condition_eq_of_append {e e' : Expression} (h : conditionKinds e ++ u = conditionKinds e' ++ v) :
    e = e' ∧ u = v := by
  simp only [conditionKinds, List.cons_append, List.append_assoc, List.cons.injEq, true_and, List.nil_append] at h
  exact Expression.eq_of_closed (fun _ => endsExpression_parenthesis _) h

theorem else_ne_of_endsStatement (h : EndsStatement (unplaced u)) (w : List TokenKind) : u ≠ .keyword .«else» :: w := by
  rintro rfl
  exact h _ rfl rfl

mutual

/-- Statements with what comes after them are told apart. -/
theorem Statement.eq_of_append (s s' : Statement) {u v : List TokenKind} (hu : EndsStatement (unplaced u))
    (hv : EndsStatement (unplaced v)) (h : s.kinds ++ u = s'.kinds ++ v) : s = s' ∧ u = v := by
  cases s <;> cases s' <;> simp only [Statement.kinds, List.cons_append, List.append_assoc, List.nil_append,
    List.cons.injEq, TokenKind.keyword.injEq, TokenKind.identifier.injEq, TokenKind.symbol.injEq, reduceCtorEq,
    false_and, true_and] at h
  case let.let =>
    obtain ⟨rfl, hvalue⟩ := h
    obtain ⟨rfl, rfl⟩ := Expression.eq_of_closed (fun _ => endsExpression_semicolon _) hvalue
    exact ⟨rfl, rfl⟩
  case let.letElement | letElement.let =>
    obtain ⟨-, hc, -⟩ := h
    cases hc
  case letElement.letElement =>
    obtain ⟨rfl, hindex⟩ := h
    obtain ⟨rfl, hassigned⟩ := Expression.eq_of_closed (fun _ => endsExpression_bracket _) hindex
    rw [List.cons.injEq] at hassigned
    obtain ⟨rfl, rfl⟩ := Expression.eq_of_closed (fun _ => endsExpression_semicolon _) hassigned.2
    exact ⟨rfl, rfl⟩
  case if.if block _ block' | while.while block _ block' =>
    obtain ⟨rfl, hblock⟩ := condition_eq_of_append h
    obtain ⟨rfl, rfl⟩ := block_eq_of_append block block' hblock
    exact ⟨rfl, rfl⟩
  case if.ifElse block _ block' _ =>
    obtain ⟨rfl, hblock⟩ := condition_eq_of_append h
    obtain ⟨rfl, helse⟩ := block_eq_of_append block block' hblock
    exact absurd helse (else_ne_of_endsStatement hu _)
  case ifElse.if block _ _ block' =>
    obtain ⟨rfl, hblock⟩ := condition_eq_of_append h
    obtain ⟨rfl, helse⟩ := block_eq_of_append block block' hblock
    exact absurd helse.symm (else_ne_of_endsStatement hv _)
  case ifElse.ifElse block elseBlock _ block' elseBlock' =>
    obtain ⟨rfl, hblock⟩ := condition_eq_of_append h
    obtain ⟨rfl, helse⟩ := block_eq_of_append block block' hblock
    rw [List.cons.injEq] at helse
    obtain ⟨rfl, rfl⟩ := block_eq_of_append elseBlock elseBlock' helse.2
    exact ⟨rfl, rfl⟩
  case do.do =>
    obtain ⟨rfl, rfl, rfl⟩ := call_eq_of_append h
    exact ⟨rfl, rfl⟩
  case return.return =>
    obtain ⟨rfl, rfl⟩ := result_eq_of_append h
    exact ⟨rfl, rfl⟩

/-- Statements are told apart from the brace that closes their block. -/
theorem statements_eq_of_append (ss ss' : List Statement) {u v : List TokenKind}
    (h : blockKinds ss ++ .symbol '\x7d' :: u = blockKinds ss' ++ .symbol '\x7d' :: v) : ss = ss' ∧ u = v := by
  cases ss with
  | nil =>
    cases ss' with
    | nil => exact ⟨rfl, (List.cons.inj h).2⟩
    | cons s' ss' => cases s' <;> simp [blockKinds, Statement.kinds] at h
  | cons s ss =>
    cases ss' with
    | nil => cases s <;> simp [blockKinds, Statement.kinds] at h
    | cons s' ss' =>
      simp only [blockKinds, List.append_assoc] at h
      obtain ⟨rfl, hrest⟩ := Statement.eq_of_append s s' (by simpa using endsStatement_block ss)
        (by simpa using endsStatement_block ss') h
      obtain ⟨rfl, rfl⟩ := statements_eq_of_append ss ss' hrest
      exact ⟨rfl, rfl⟩

/-- Blocks with what comes after them are told apart. -/
theorem block_eq_of_append (ss ss' : List Statement) {u v : List TokenKind}
    (h : braced (blockKinds ss) ++ u = braced (blockKinds ss') ++ v) : ss = ss' ∧ u = v := by
  simp only [braced, List.cons_append, List.append_assoc, List.cons.injEq, true_and, List.nil_append] at h
  exact statements_eq_of_append ss ss' h

end

/-! ## Declarations -/

theorem TypeName.eq_of_kind {type type' : TypeName} (h : type.kind = type'.kind) : type = type' := by
  cases type <;> cases type' <;> simp_all [TypeName.kind]

/-- The type of a subroutine's value is told apart from `void`. -/
theorem resultType_eq_of_kind {type type' : Option TypeName}
    (h : type.elim (.keyword .void) TypeName.kind = type'.elim (.keyword .void) TypeName.kind) : type = type' := by
  cases type with
  | none =>
    cases type' with
    | none => rfl
    | some type' => cases type' <;> cases h
  | some type =>
    cases type' with
    | none => cases type <;> cases h
    | some type' => rw [TypeName.eq_of_kind h]

/-- Variables that are declared together are told apart from the semicolon after them. -/
theorem NamesOfType.eq_of_append {d d' : NamesOfType}
    (h : d.kinds ++ .symbol ';' :: u = d'.kinds ++ .symbol ';' :: v) : d = d' ∧ u = v := by
  obtain ⟨type, first, others⟩ := d
  obtain ⟨type', first', others'⟩ := d'
  simp only [NamesOfType.kinds, moreNameKinds, List.cons_append, List.cons.injEq, TokenKind.identifier.injEq] at h
  obtain ⟨htype, rfl, hothers⟩ := h
  obtain ⟨rfl, hrest⟩ := flatMap_append_inj (· = .symbol ',') (fun name => ⟨_, _, rfl, rfl⟩)
    (fun name name' u v h => by simpa using h) (by simp) (by simp) hothers
  rw [TypeName.eq_of_kind htype]
  exact ⟨rfl, (List.cons.inj hrest).2⟩

theorem ClassVariables.eq_of_append (d d' : ClassVariables) (u v : List TokenKind) (h : d.kinds ++ u = d'.kinds ++ v) :
    d = d' ∧ u = v := by
  obtain ⟨kind, d⟩ := d
  obtain ⟨kind', d'⟩ := d'
  simp only [ClassVariables.kinds, List.cons_append, List.append_assoc, List.nil_append, List.cons.injEq,
    TokenKind.keyword.injEq] at h
  obtain ⟨hkind, hnames⟩ := h
  obtain ⟨rfl, rfl⟩ := NamesOfType.eq_of_append hnames
  have same : kind = kind' := by cases kind <;> cases kind' <;> first | rfl | cases hkind
  exact ⟨by rw [same], rfl⟩

theorem locals_eq_of_append (d d' : NamesOfType) (u v : List TokenKind) (h : localKinds d ++ u = localKinds d' ++ v) :
    d = d' ∧ u = v := by
  simp only [localKinds, List.cons_append, List.append_assoc, List.nil_append, List.cons.injEq, true_and] at h
  exact NamesOfType.eq_of_append h

/-- Parameters are told apart from the parenthesis after them. -/
theorem parameters_eq_of_append {ps ps' : List Parameter}
    (h : Parameter.listKinds ps ++ .symbol ')' :: u = Parameter.listKinds ps' ++ .symbol ')' :: v) :
    ps = ps' ∧ u = v := by
  have one (p p' : Parameter) (u v : List TokenKind) (h : p.kinds ++ u = p'.kinds ++ v) : p = p' ∧ u = v := by
    obtain ⟨type, name⟩ := p
    obtain ⟨type', name'⟩ := p'
    simp only [Parameter.kinds, List.cons_append, List.nil_append, List.cons.injEq, TokenKind.identifier.injEq] at h
    obtain ⟨htype, rfl, rfl⟩ := h
    rw [TypeName.eq_of_kind htype]
    exact ⟨rfl, rfl⟩
  cases ps with
  | nil =>
    cases ps' with
    | nil => exact ⟨rfl, (List.cons.inj h).2⟩
    | cons p' ps' =>
      obtain ⟨type', name'⟩ := p'
      cases type' <;> cases h
  | cons p ps =>
    cases ps' with
    | nil =>
      obtain ⟨type, name⟩ := p
      cases type <;> cases h
    | cons p' ps' =>
      simp only [Parameter.listKinds, Parameter.moreKinds, List.append_assoc] at h
      obtain ⟨rfl, hmore⟩ := one p p' _ _ h
      obtain ⟨rfl, hrest⟩ := flatMap_append_inj (· = .symbol ',') (fun p => ⟨_, _, rfl, rfl⟩)
        (fun p p' u v h => one p p' u v (List.cons.inj h).2) (by simp) (by simp) hmore
      exact ⟨rfl, (List.cons.inj hrest).2⟩

/-- The block of a subroutine begins with no declaration of a local. -/
theorem blockKinds_head (ss : List Statement) (w : List TokenKind) :
    ∀ kind ∈ (blockKinds ss ++ .symbol '\x7d' :: w).head?, kind ≠ .keyword .var := by
  cases ss with
  | nil => simp [blockKinds]
  | cons s ss => cases s <;> simp [blockKinds, Statement.kinds]

theorem Subroutine.eq_of_append (s s' : Subroutine) (u v : List TokenKind) (h : s.kinds ++ u = s'.kinds ++ v) :
    s = s' ∧ u = v := by
  obtain ⟨kind, type, name, ps, ds, ss⟩ := s
  obtain ⟨kind', type', name', ps', ds', ss'⟩ := s'
  simp only [Subroutine.kinds, Subroutine.kindsFromName, braced, List.cons_append, List.append_assoc, List.nil_append,
    List.cons.injEq, TokenKind.keyword.injEq, TokenKind.identifier.injEq, true_and] at h
  obtain ⟨hkind, htype, rfl, hps⟩ := h
  obtain ⟨rfl, hbody⟩ := parameters_eq_of_append hps
  rw [List.cons.injEq] at hbody
  obtain ⟨rfl, hss⟩ := flatMap_append_inj (· = .keyword .var) (fun d => ⟨_, _, rfl, rfl⟩) locals_eq_of_append
    (blockKinds_head ss u) (blockKinds_head ss' v) hbody.2
  obtain ⟨rfl, rfl⟩ := statements_eq_of_append ss ss' hss
  have same : kind = kind' := by cases kind <;> cases kind' <;> first | rfl | cases hkind
  rw [same, resultType_eq_of_kind htype]
  exact ⟨rfl, rfl⟩

/-- After the declarations of a class's variables no further one begins. -/
theorem subroutines_head (ss : List Subroutine) (w : List TokenKind) :
    ∀ kind ∈ (ss.flatMap Subroutine.kinds ++ .symbol '\x7d' :: w).head?,
      ¬∃ k : ClassVariableKind, kind = .keyword k.keyword := by
  cases ss with
  | nil => simp
  | cons s ss =>
    rintro - ⟨⟩ ⟨k, hk⟩
    cases hs : s.kind <;> cases k <;> simp [hs, SubroutineKind.keyword, ClassVariableKind.keyword] at hk

/-- A class is told by its tokens. -/
theorem ClassDeclaration.eq_of_kinds {c c' : ClassDeclaration} (h : c.kinds = c'.kinds) : c = c' := by
  obtain ⟨name, ds, ss⟩ := c
  obtain ⟨name', ds', ss'⟩ := c'
  simp only [ClassDeclaration.kinds, braced, List.cons_append, List.append_assoc, List.cons.injEq,
    TokenKind.identifier.injEq, true_and] at h
  obtain ⟨rfl, hds⟩ := h
  obtain ⟨rfl, hss⟩ := flatMap_append_inj (fun kind => ∃ k : ClassVariableKind, kind = .keyword k.keyword)
    (fun d => ⟨_, _, rfl, _, rfl⟩) ClassVariables.eq_of_append (subroutines_head ss []) (subroutines_head ss' []) hds
  obtain ⟨rfl, -⟩ := flatMap_append_inj (fun kind => ∃ k : SubroutineKind, kind = .keyword k.keyword)
    (fun s => ⟨_, _, rfl, _, rfl⟩) Subroutine.eq_of_append (by simp) (by simp) hss
  rfl

end JackCompiler

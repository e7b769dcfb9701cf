import JackCompiler.Proofs.Scanning.Decomposition

/-!
# Places in a text

Whatever the scanner reports stands at a character of the text: each token where its lexeme begins, and an error where the
piece begins that cannot be cut off, or at the character of a string constant that is out of range. Main statement:
`scan_places`.
-/

namespace JackCompiler

/-- A position is that of a character of a text. -/
def Position.IsIn (text : List Char) (p : Position) : Prop :=
  ∃ before c after, text = before ++ c :: after ∧ p = .behind before

/-- The positions of tokens, or of an error, are those of characters of a text. -/
def PlacesIn (text : List Char) : Except LexError (List Token) → Prop
  | .ok tokens => ∀ token ∈ tokens, token.position.IsIn text
  | .error e => e.position.IsIn text

section

variable {before text rest : List Char} {p start : Position} {c : Char} {cs : List Char} {e : LexError}

/-- The text behind some characters begins with a character. -/
theorem Position.behind_isIn : (behind before).IsIn (before ++ c :: cs) :=
  ⟨before, c, cs, rfl, rfl⟩

theorem Position.next_behind : (behind before).next c = .behind (before ++ [c]) :=
  after_behind before [c]

/-- An error in a string constant stands where the string begins, or at a character behind its first quote. -/
theorem position_of_closeString {count : Nat} {taken : List Char} (hs : start.IsIn text)
    (ht : text = before ++ rest) (h : closeString start (.behind before) count taken rest = .error e) :
    e.position.IsIn text := by
  induction rest generalizing before count taken with
  | nil =>
    cases h
    exact hs
  | cons c cs ih =>
    rw [closeString] at h
    split at h
    · cases h
    · split at h
      · cases h
        exact hs
      · split at h
        · cases h
          exact ⟨before, c, cs, ht, rfl⟩
        · split at h
          · cases h
            exact hs
          · rw [Position.next_behind] at h
            refine ih ?_ h
            rw [ht, List.append_assoc, List.singleton_append]

/-- When no piece can be cut off, the error stands where the text begins, or in the string constant that begins there. -/
theorem position_of_cut (h : Front.cut (.behind before) c cs = .error e) : e.position.IsIn (before ++ c :: cs) := by
  unfold Front.cut at h
  split at h
  · cases h
  split at h
  · cases h
  split at h
  · split at h <;> cases h
    exact Position.behind_isIn
  split at h
  · split at h <;> cases h
    next hclose =>
      rw [Position.next_behind] at hclose
      exact position_of_closeString Position.behind_isIn (by rw [List.append_assoc, List.singleton_append]) hclose
  split at h
  · cases h
  split at h <;> cases h

/-- A lexeme of no kind is an error where it begins. -/
theorem position_of_classify {lexeme : String} (h : classify lexeme p = .error e) : e.position = p := by
  unfold classify at h
  split at h
  · cases h
  split at h
  · cases h
    rfl
  split at h
  · cases h
  split at h
  · cases h
  split at h
  · cases h
  split at h
  · dsimp only at h
    split at h <;> cases h
    rfl
  · cases h
    rfl

end

/-- Scanning on from some character finds tokens, or an error, at characters of the text. -/
theorem scanFrom_places {text before rest : List Char} {found : Array Token} (ht : text = before ++ rest)
    (hf : ∀ token ∈ found.toList, token.position.IsIn text) : PlacesIn text (scanFrom (.behind before) rest found) := by
  generalize hp : Position.behind before = p
  fun_induction scanFrom p rest found generalizing before with
  | case1 => exact hf
  | case2 p found c cs e hcut =>
    subst hp ht
    exact position_of_cut hcut
  | case3 p found c cs front hcut _ hl e hk =>
    subst hp ht
    rw [PlacesIn, position_of_classify hk]
    exact Position.behind_isIn
  | case4 p found c cs front hcut _ hl kind hk ih =>
    subst hp
    refine ih ?_ ?_ (Position.after_behind before front.taken).symm
    · rw [ht, List.append_assoc, Front.taken_append_rest hcut]
    · rw [Array.toList_push, List.forall_mem_append, List.forall_mem_singleton]
      exact ⟨hf, ⟨before, c, cs, ht, rfl⟩⟩
  | case5 p found c cs front hcut _ hl ih =>
    subst hp
    refine ih ?_ hf (Position.after_behind before front.taken).symm
    rw [ht, List.append_assoc, Front.taken_append_rest hcut]

/-- Whatever the scanner reports stands at a character of the text. -/
theorem scan_places (text : String) : PlacesIn text.toList (scan text) := by
  have start : text.toList = [] ++ text.toList := rfl
  refine scanFrom_places start fun token h => ?_
  cases h

end JackCompiler

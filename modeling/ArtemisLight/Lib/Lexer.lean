import Mathlib.Data.List.Forall2

/-!
# Tokens of a SQL text

A lexer by the standard rules.  A quoted identifier runs to the first double quote that no other one
follows, and doubled quotes stand for one; strings are quoted likewise by single quotes; a comment
is `--` to the end of the line or `/* … */`.  The lexer reads one character after the other, so a
text is lexed piece by piece wherever the pieces meet at the end of a token (`lex_append`).
-/

namespace ArtemisLight.Lexer

/-- A token.  Comments and white space are none. -/
inductive Lexeme where
  /-- A keyword, a bare identifier, a number, or a numbered placeholder. -/
  | word (text : List Char)
  | ident (name : List Char)
  | string (text : List Char)
  | symbol (c : Char)
  /-- The text ends inside a quotation or a comment. -/
  | unterminated
  deriving DecidableEq, Repr

/-- What the lexer is in the middle of. -/
inductive State where
  | outside
  | word (text : List Char)
  | quoted (name : List Char)
  /-- A double quote inside a quoted identifier: its end, or the first of a doubled one. -/
  | closing (name : List Char)
  | string (text : List Char)
  | stringClosing (text : List Char)
  | dash
  | lineComment
  | slash
  | blockComment
  /-- A star inside a block comment. -/
  | star
  deriving DecidableEq, Repr

/-- White space. -/
def isSpace (c : Char) : Bool := c = ' ' || c = '\t' || c = '\n' || c = '\r'

/-- The characters of words. -/
def isWord (c : Char) : Bool := c.isAlphanum || c = '_' || c = '$' || decide (0x80 ≤ c.toNat)

/-- The token that ends with the text, if any. -/
def finish : State → List Lexeme
  | .outside => []
  | .word text => [.word text]
  | .quoted _ => [.unterminated]
  | .closing name => [.ident name]
  | .string _ => [.unterminated]
  | .stringClosing text => [.string text]
  | .dash => [.symbol '-']
  | .lineComment => []
  | .slash => [.symbol '/']
  | .blockComment => [.unterminated]
  | .star => [.unterminated]

/-- A character between two tokens. -/
def enter (c : Char) : List Lexeme × State :=
  if isSpace c then ([], .outside)
  else if c = '"' then ([], .quoted [])
  else if c = '\'' then ([], .string [])
  else if c = '-' then ([], .dash)
  else if c = '/' then ([], .slash)
  else if isWord c then ([], .word [c])
  else ([.symbol c], .outside)

/-- The token that the lexer is in ends before this character. -/
def leave (s : State) (c : Char) : List Lexeme × State := (finish s ++ (enter c).1, (enter c).2)

/-- One character. -/
def step (s : State) (c : Char) : List Lexeme × State :=
  match s with
  | .outside => leave s c
  | .word text => if isWord c then ([], .word (text ++ [c])) else leave s c
  | .quoted name => if c = '"' then ([], .closing name) else ([], .quoted (name ++ [c]))
  | .closing name => if c = '"' then ([], .quoted (name ++ [c])) else leave s c
  | .string text => if c = '\'' then ([], .stringClosing text) else ([], .string (text ++ [c]))
  | .stringClosing text => if c = '\'' then ([], .string (text ++ [c])) else leave s c
  | .dash => if c = '-' then ([], .lineComment) else leave s c
  | .lineComment => ([], if c = '\n' then .outside else .lineComment)
  | .slash => if c = '*' then ([], .blockComment) else leave s c
  | .blockComment => ([], if c = '*' then .star else .blockComment)
  | .star => ([], if c = '/' then .outside else if c = '*' then .star else .blockComment)

/-- The tokens of a text that is read in a given state. -/
def lexFrom : State → List Char → List Lexeme
  | s, [] => finish s
  | s, c :: cs => (step s c).1 ++ lexFrom (step s c).2 cs

/-- The tokens of a text. -/
def lex (text : List Char) : List Lexeme := lexFrom .outside text

/-- The state after a text that is read in a given state. -/
def stateFrom : State → List Char → State
  | s, [] => s
  | s, c :: cs => stateFrom (step s c).2 cs

/-- The state after a text. -/
def after (text : List Char) : State := stateFrom .outside text

/-- A name with its double quotes doubled. -/
def double : List Char → List Char
  | [] => []
  | c :: cs => if c = '"' then '"' :: '"' :: double cs else c :: double cs

/-- Write a name as a quoted identifier. -/
def quote (name : List Char) : List Char := '"' :: double name ++ ['"']

/-- Of an identifier, only that it is one. -/
def Lexeme.erase : Lexeme → Lexeme
  | .ident _ => .ident []
  | t => t

/-- The name of an identifier. -/
def Lexeme.ident? : Lexeme → Option (List Char)
  | .ident name => some name
  | _ => none

/-- The text of a placeholder, which is a question mark or a dollar sign with a number. -/
def Lexeme.placeholder? : Lexeme → Option (List Char)
  | .symbol '?' => some ['?']
  | .word ('$' :: digits) => some ('$' :: digits)
  | _ => none

/-! ### Pieces of a text -/

section Pieces

variable {a b text name : List Char}

theorem stateFrom_append (s : State) (a b : List Char) :
    stateFrom s (a ++ b) = stateFrom (stateFrom s a) b := by
  induction a generalizing s with
  | nil => rfl
  | cons c a ih => exact ih _

theorem lexFrom_append (s : State) (h : ∀ c ∈ b.head?, step (stateFrom s a) c
    = leave (stateFrom s a) c) : lexFrom s (a ++ b) = lexFrom s a ++ lex b := by
  induction a generalizing s with
  | nil =>
    cases b with
    | nil => exact (List.append_nil _).symm
    | cons c b =>
      have hstep : step s c = leave s c := h c rfl
      show (step s c).1 ++ lexFrom (step s c).2 b = finish s ++ lexFrom .outside (c :: b)
      rw [hstep]
      exact List.append_assoc _ _ _
  | cons d a ih =>
    show (step s d).1 ++ lexFrom (step s d).2 (a ++ b) = (step s d).1 ++ lexFrom (step s d).2 a ++ _
    rw [ih _ h, List.append_assoc]

/-- The token that ends `a` does not go on in `b`. -/
def Joins (a b : List Char) : Prop := ∀ c ∈ b.head?, step (after a) c = leave (after a) c

/-- A text is lexed piece by piece. -/
theorem lex_append (h : Joins a b) : lex (a ++ b) = lex a ++ lex b := lexFrom_append _ h

/-- Between two tokens, any piece may follow. -/
theorem joins_of_outside (h : after a = .outside) (b : List Char) : Joins a b := by
  intro c _
  rw [h]
  rfl

/-- A character that ends words and quoted identifiers. -/
def Breaks (c : Char) : Prop := isWord c = false ∧ c ≠ '"'

instance : DecidablePred Breaks := fun _ => inferInstanceAs (Decidable (_ ∧ _))

/-- The text ends between tokens, or with a token that any breaking character ends. -/
def Whole (a : List Char) : Prop := ∀ c, Breaks c → step (after a) c = leave (after a) c

theorem whole_of_outside (h : after a = .outside) : Whole a := by
  intro c _
  rw [h]
  rfl

theorem whole_of_word (h : after a = .word text) : Whole a := by
  intro c hc
  rw [h]
  show (if isWord c then _ else _) = _
  rw [hc.1]
  rfl

theorem whole_of_closing (h : after a = .closing name) : Whole a := by
  intro c hc
  rw [h]
  exact if_neg hc.2

theorem Whole.joins (h : Whole a) (hb : ∀ c ∈ b.head?, Breaks c) : Joins a b :=
  fun c hc => h c (hb c hc)

/-- Where the next piece starts with a token of its own, the state after it is that of the piece. -/
theorem after_append (h : Joins a b) (hb : b ≠ []) : after (a ++ b) = after b := by
  unfold after
  rw [stateFrom_append]
  cases b with
  | nil => exact absurd rfl hb
  | cons c b =>
    have hstep : step (stateFrom .outside a) c = leave (stateFrom .outside a) c := h c rfl
    show stateFrom (step _ c).2 b = stateFrom (enter c).2 b
    rw [hstep]
    rfl

theorem Whole.append (ha : Whole a) (hb : Whole b) (hhead : ∀ c ∈ b.head?, Breaks c) :
    Whole (a ++ b) := by
  by_cases hnil : b = []
  · rw [hnil, List.append_nil]
    exact ha
  · intro c hc
    rw [after_append (ha.joins hhead) hnil]
    exact hb c hc

end Pieces

/-! ### Words and lists -/

theorem read_word (acc : List Char) {text : List Char} (h : ∀ c ∈ text, isWord c = true) :
    lexFrom (.word acc) text = [.word (acc ++ text)] ∧
      stateFrom (.word acc) text = .word (acc ++ text) := by
  induction text generalizing acc with
  | nil =>
    rw [List.append_nil]
    exact ⟨rfl, rfl⟩
  | cons c text ih =>
    obtain ⟨hc, htext⟩ := List.forall_mem_cons.mp h
    have hstep : step (.word acc) c = ([], .word (acc ++ [c])) := if_pos hc
    rw [List.append_cons]
    show (step (.word acc) c).1 ++ lexFrom (step (.word acc) c).2 text = _ ∧
      stateFrom (step (.word acc) c).2 text = _
    rw [hstep]
    exact ih _ htext

/-- A list whose items end with a token is lexed item by item. -/
theorem lex_join {parts : List (List Char)} (h : ∀ a ∈ parts, Whole a) :
    Whole ([',', ' '].intercalate parts) ∧
      lex ([',', ' '].intercalate parts) = [Lexeme.symbol ','].intercalate (parts.map lex) := by
  have hcomma : Breaks ',' := by decide
  induction parts with
  | nil => exact ⟨whole_of_outside rfl, rfl⟩
  | cons a parts ih =>
    obtain ⟨ha, hparts⟩ := List.forall_mem_cons.mp h
    obtain ⟨hwhole, hlex⟩ := ih hparts
    cases parts with
    | nil =>
      rw [List.map_singleton, List.intercalate_singleton, List.intercalate_singleton]
      exact ⟨ha, rfl⟩
    | cons b parts =>
      rw [List.map_cons, List.map_cons, List.intercalate_cons_cons, List.intercalate_cons_cons,
        List.append_assoc, List.append_assoc, ← List.map_cons, ← hlex]
      generalize [',', ' '].intercalate (b :: parts) = rest at hwhole
      have hhead : ∀ c ∈ ([',', ' '] ++ rest).head?, Breaks c := by
        rintro c ⟨⟩
        exact hcomma
      have hsep : Joins [',', ' '] rest := joins_of_outside rfl rest
      have hrest : Whole ([',', ' '] ++ rest) := by
        intro c hc
        by_cases hnil : rest = []
        · subst hnil
          rfl
        · rw [after_append hsep hnil]
          exact hwhole c hc
      refine ⟨ha.append hrest hhead, ?_⟩
      rw [lex_append (ha.joins hhead), lex_append hsep]
      rfl

/-- What is read off each token, if off a separator nothing is, is read off each item. -/
theorem filterMap_intercalate {β : Type*} (f : Lexeme → Option β) {sep : List Lexeme}
    (hsep : sep.filterMap f = []) (parts : List (List Lexeme)) :
    (sep.intercalate parts).filterMap f = parts.flatMap (·.filterMap f) := by
  induction parts with
  | nil => rfl
  | cons a parts ih =>
    cases parts with
    | nil => rw [List.intercalate_singleton, List.flatMap_singleton]
    | cons b parts =>
      rw [List.intercalate_cons_cons, List.filterMap_append, List.filterMap_append, hsep,
        List.append_nil, ih]
      rfl

theorem flatMap_items {α β : Type*} {f : Lexeme → Option β} {item : α → List Lexeme}
    {values : α → List β} (h : ∀ a, (item a).filterMap f = values a) (l : List α) :
    (l.map item).flatMap (·.filterMap f) = l.flatMap values := by
  rw [List.flatMap_map]
  simp only [h]

theorem map_intercalate {β : Type*} (f : Lexeme → β) (sep : List Lexeme)
    (parts : List (List Lexeme)) :
    (sep.intercalate parts).map f = (sep.map f).intercalate (parts.map (·.map f)) := by
  induction parts with
  | nil => rfl
  | cons a parts ih =>
    cases parts with
    | nil => rw [List.map_singleton, List.intercalate_singleton, List.intercalate_singleton]
    | cons b parts =>
      rw [List.intercalate_cons_cons, List.map_append, List.map_append, ih]
      exact List.intercalate_cons_cons.symm

/-- What holds of the separator and of every item holds of the list. -/
theorem all_intercalate {p : Lexeme → Bool} {sep : List Lexeme} (hsep : sep.all p = true)
    {parts : List (List Lexeme)} (h : ∀ part ∈ parts, part.all p = true) :
    (sep.intercalate parts).all p = true := by
  induction parts with
  | nil => rfl
  | cons a parts ih =>
    obtain ⟨ha, hparts⟩ := List.forall_mem_cons.mp h
    cases parts with
    | nil =>
      rw [List.intercalate_singleton]
      exact ha
    | cons b parts =>
      rw [List.intercalate_cons_cons, List.all_append, List.all_append, ha, hsep, ih hparts]
      rfl

/-! ### Quoted identifiers -/

/-- Inside a quotation, a name that is written with its quotes doubled is read back. -/
theorem read_double (name acc rest : List Char) :
    lexFrom (.quoted acc) (double name ++ rest) = lexFrom (.quoted (acc ++ name)) rest ∧
      stateFrom (.quoted acc) (double name ++ rest) = stateFrom (.quoted (acc ++ name)) rest := by
  induction name generalizing acc with
  | nil =>
    rw [List.append_nil]
    exact ⟨rfl, rfl⟩
  | cons c name ih =>
    have hacc : acc ++ c :: name = acc ++ [c] ++ name := List.append_cons ..
    rw [hacc]
    by_cases hc : c = '"'
    · -- a doubled quote closes the quotation and opens it again
      subst hc
      exact ih _
    · have hdouble : double (c :: name) = c :: double name := if_neg hc
      have hstep : step (.quoted acc) c = ([], .quoted (acc ++ [c])) := if_neg hc
      rw [hdouble]
      show (step (.quoted acc) c).1 ++ lexFrom (step (.quoted acc) c).2 _ = _ ∧
        stateFrom (step (.quoted acc) c).2 _ = _
      rw [hstep]
      exact ih _

/-- A quoted name is one token, which decodes to the name. -/
theorem lex_quote (name : List Char) : lex (quote name) = [.ident name] :=
  (read_double name [] ['"']).1

theorem after_quote (name : List Char) : after (quote name) = .closing name :=
  (read_double name [] ['"']).2

/-- Distinct names are written differently. -/
theorem quote_injective : Function.Injective quote := by
  intro a b h
  have hlex : lex (quote a) = lex (quote b) := by rw [h]
  rw [lex_quote, lex_quote] at hlex
  exact Lexeme.ident.inj (List.cons.inj hlex).1

/-! ### Templates

A text is composed of fixed parts, which end between two tokens, and of items, which end with a
token.  The two alternate.
-/

/-- The text is read as these tokens, the last of which ends with it. -/
structure Reads (s : String) (tokens : List Lexeme) : Prop where
  whole : Whole s.toList
  lex : lex s.toList = tokens

/-- The text is read as these tokens and ends after them, so that any item may follow. -/
structure ReadsOpen (s : String) (tokens : List Lexeme) : Prop where
  outside : after s.toList = .outside
  lex : lex s.toList = tokens

/-- A fixed part: it is read as these tokens and ends after them, and it ends an item before it. -/
def Fixed (s : String) (tokens : List Lexeme) : Prop :=
  s.toList.head?.any (fun c => decide (Breaks c)) = true ∧ after s.toList = .outside ∧
    lex s.toList = tokens

instance (s : String) (tokens : List Lexeme) : Decidable (Fixed s tokens) :=
  inferInstanceAs (Decidable (_ ∧ _ ∧ _))

section Templates

variable {s t : String} {tokens tokens' : List Lexeme}

theorem ReadsOpen.reads (h : ReadsOpen s tokens) : Reads s tokens :=
  ⟨whole_of_outside h.outside, h.lex⟩

theorem Reads.of_word (text : List Char) (h : after s.toList = .word text)
    (hlex : Lexer.lex s.toList = tokens) : Reads s tokens := ⟨whole_of_word h, hlex⟩

/-- An item after a fixed part. -/
theorem ReadsOpen.item (h : ReadsOpen s tokens) (ht : Reads t tokens') :
    Reads (s ++ t) (tokens ++ tokens') := by
  have hjoins : Joins s.toList t.toList := joins_of_outside h.outside _
  constructor
  · rw [String.toList_append]
    by_cases hnil : t.toList = []
    · rw [hnil, List.append_nil]
      exact whole_of_outside h.outside
    · intro c hc
      rw [after_append hjoins hnil]
      exact ht.whole c hc
  · rw [String.toList_append, lex_append hjoins, h.lex, ht.lex]

/-- A part after an item, which it ends. -/
theorem Reads.append (h : Reads s tokens) (ht : Reads t tokens')
    (hhead : t.toList.head?.all (fun c => decide (Breaks c)) = true) :
    Reads (s ++ t) (tokens ++ tokens') := by
  have hbreaks : ∀ c ∈ t.toList.head?, Breaks c := fun c hc =>
    of_decide_eq_true ((Option.all_eq_true _ _).mp hhead c hc)
  constructor
  · rw [String.toList_append]
    exact h.whole.append ht.whole hbreaks
  · rw [String.toList_append, lex_append (h.whole.joins hbreaks), h.lex, ht.lex]

/-- A fixed part after an item. -/
theorem Reads.fixed (h : Reads s tokens) (ht : Fixed t tokens') :
    ReadsOpen (s ++ t) (tokens ++ tokens') := by
  obtain ⟨hhead, hafter, hlex⟩ := ht
  obtain ⟨c, hc, hbreaks⟩ := (Option.any_eq_true _ _).mp hhead
  have hjoins : Joins s.toList t.toList := h.whole.joins fun d hd => by
    obtain rfl := Option.some.inj (hc.symm.trans hd)
    exact of_decide_eq_true hbreaks
  have hnil : t.toList ≠ [] := by
    intro hnil
    rw [hnil] at hc
    exact nomatch hc
  constructor
  · rw [String.toList_append, after_append hjoins hnil]
    exact hafter
  · rw [String.toList_append, lex_append hjoins, h.lex, hlex]

/-- Items that are joined by commas. -/
theorem Reads.join {texts : List String} {items : List (List Lexeme)}
    (h : List.Forall₂ Reads texts items) :
    Reads (", ".intercalate texts) ([Lexeme.symbol ','].intercalate items) := by
  have hparts : (∀ a ∈ texts.map String.toList, Whole a) ∧
      (texts.map String.toList).map Lexer.lex = items := by
    induction h with
    | nil => exact ⟨fun a ha => (nomatch ha), rfl⟩
    | cons hitem _ ih =>
      refine ⟨List.forall_mem_cons.mpr ⟨hitem.whole, ih.1⟩, ?_⟩
      rw [List.map_cons, List.map_cons, hitem.lex, ih.2]
  obtain ⟨hwhole, hlex⟩ := lex_join hparts.1
  rw [hparts.2] at hlex
  constructor
  · rw [String.toList_intercalate]
    exact hwhole
  · rw [String.toList_intercalate]
    exact hlex

theorem forall₂_reads {α : Type*} {text : α → String} {tokens : α → List Lexeme}
    (h : ∀ a, Reads (text a) (tokens a)) (l : List α) :
    List.Forall₂ Reads (l.map text) (l.map tokens) := by
  rw [List.forall₂_map_left_iff, List.forall₂_map_right_iff]
  exact List.forall₂_same.mpr fun a _ => h a

end Templates

end ArtemisLight.Lexer

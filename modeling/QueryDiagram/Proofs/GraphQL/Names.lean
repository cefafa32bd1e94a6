import QueryDiagram.GraphQL.Parser
import QueryDiagram.Proofs.Json.Reading
import QueryDiagram.Proofs.Tree.Conversion

/-!
# Names in documents

A name begins with a letter or an underscore and goes on with letters, digits and underscores
(`IsName`). The lexer spells every name so (`Token.genuine_of_read`), and the parser takes names
from tokens alone, so what the selections of a document call their fields and spreads are names
(`named_of_parse`).
-/

namespace QueryDiagram

namespace GraphQL

/-! ## Names -/

/-- The text is a name. -/
def IsName : Text → Prop
  | [] => False
  | c :: tail => isNameStart c ∧ ∀ d ∈ tail, isNameContinue d

theorem IsName.isNameContinue {t : Text} (h : IsName t) : ∀ c ∈ t, isNameContinue c := by
  cases t with
  | nil => exact h.elim
  | cons c tail =>
    intro d hd
    rcases List.mem_cons.1 hd with rfl | hd
    · simp [GraphQL.isNameContinue, h.1]
    · exact h.2 d hd

/-- A mark that no name goes on with is in no name. -/
theorem IsName.not_mem {t : Text} (h : IsName t) {c : CodePoint} (hc : ¬ GraphQL.isNameContinue c) :
    c ∉ t := fun hm => hc (h.isNameContinue c hm)

/-! ## Tokens -/

/-- A token that the lexer may give. -/
def Token.Genuine : Token → Prop
  | name n => IsName n
  | _ => True

theorem genuine_of_dots {t rest : Text} {token : Token} (h : dots t = .ok (token, rest)) :
    token.Genuine := by
  unfold dots at h
  split at h
  · obtain ⟨rfl, -⟩ := Prod.mk.inj (Except.ok.inj h)
    trivial
  · cases h
  · split at h <;> cases h

theorem genuine_of_stringToken {t rest : Text} {token : Token}
    (h : stringToken t = .ok (token, rest)) : token.Genuine := by
  unfold stringToken at h
  split at h
  · obtain ⟨lines, -, h⟩ := bind_eq_ok_iff.1 h
    obtain ⟨rfl, -⟩ := Prod.mk.inj (Except.ok.inj h)
    trivial
  · obtain ⟨value, -, h⟩ := bind_eq_ok_iff.1 h
    obtain ⟨rfl, -⟩ := Prod.mk.inj (Except.ok.inj h)
    trivial

theorem genuine_of_number {sign t rest : Text} {token : Token}
    (h : number sign t = .ok (token, rest)) : token.Genuine := by
  unfold number at h
  obtain ⟨whole, -, h⟩ := bind_eq_ok_iff.1 h
  obtain ⟨fraction, -, h⟩ := bind_eq_ok_iff.1 h
  obtain ⟨exponent, -, h⟩ := bind_eq_ok_iff.1 h
  obtain ⟨-, -, h⟩ := bind_eq_ok_iff.1 h
  obtain ⟨rfl, -⟩ := Prod.mk.inj (Except.ok.inj h)
  split_ifs <;> trivial

theorem Token.genuine_of_readAt {c : Char} {t rest : Text} {token : Token}
    (h : Token.readAt c t = .ok (token, rest)) : token.Genuine := by
  unfold Token.readAt at h
  split at h
  · obtain ⟨rfl, -⟩ := Prod.mk.inj (Except.ok.inj h)
    trivial
  · split_ifs at h with hdot hquote hminus hdigit hstart hsingle
    · exact genuine_of_dots h
    · exact genuine_of_stringToken h
    · exact genuine_of_number h
    · exact genuine_of_number h
    · obtain ⟨rfl, -⟩ := Prod.mk.inj (Except.ok.inj h)
      refine ⟨hstart, fun d hd => ?_⟩
      change d ∈ (t.span isNameContinue).1 at hd
      rw [List.span_eq_takeWhile_dropWhile] at hd
      exact List.mem_takeWhile_imp hd

theorem Token.genuine_of_read {t rest : Text} {token : Token}
    (h : Token.read t = .ok (some token, rest)) : token.Genuine := by
  unfold Token.read at h
  split at h
  · cases h
  · split at h <;> cases h
  · obtain ⟨⟨token', rest'⟩, hat, h⟩ := bind_eq_ok_iff.1 h
    obtain ⟨ht, -⟩ := Prod.mk.inj (Except.ok.inj h)
    obtain rfl := Option.some.inj ht
    exact Token.genuine_of_readAt hat

/-! ## Documents -/

/-- What the selection calls its fields and spreads, at any depth, are names. -/
def Selection.Named (s : Selection) : Prop :=
  (∀ f ∈ s.fields, IsName f.name) ∧ ∀ name ∈ s.spreads, IsName name

/-- What the selections call their fields and spreads, at any depth, are names. -/
def Named (selections : List Selection) : Prop :=
  (∀ f ∈ fieldsIn selections, IsName f.name) ∧ ∀ name ∈ spreadsIn selections, IsName name

/-- The selections of the definition, if it has any, call their fields and spreads by names. -/
def Definition.Named (d : Definition) : Prop := ∀ body ∈ d.body?, GraphQL.Named body

section Named

variable {field : Field} {name : Text} {condition : Option Text} {body : List Selection}

theorem named_iff {selections : List Selection} :
    Named selections ↔ ∀ s ∈ selections, s.Named := by
  simp only [Named, Selection.Named, mem_fieldsIn, mem_spreadsIn]
  grind

theorem named_leaf (h : IsName field.name) : (Selection.leaf field).Named :=
  ⟨by simpa [Selection.fields] using h, by simp [Selection.spreads]⟩

theorem named_nested (h : IsName field.name) (hb : Named body) :
    (Selection.nested field body).Named :=
  ⟨by simpa [Selection.fields, h] using hb.1, by simpa [Selection.spreads] using hb.2⟩

theorem named_spread (h : IsName name) : (Selection.spread name).Named :=
  ⟨by simp [Selection.fields], by simpa [Selection.spreads] using h⟩

theorem named_inline (hb : Named body) : (Selection.inline condition body).Named :=
  ⟨by simpa [Selection.fields] using hb.1, by simpa [Selection.spreads] using hb.2⟩

theorem named_operation {o : Operation} (h : Named o.body) : (Definition.operation o).Named := by
  rintro body ⟨⟩
  exact h

theorem named_fragment {f : Fragment} (h : Named f.body) : (Definition.fragment f).Named := by
  rintro body ⟨⟩
  exact h

theorem named_typeSystem {item : TypeSystemItem} {isExtension : Bool} :
    (Definition.typeSystem item isExtension).Named := by
  rintro body ⟨⟩

end Named

/-! ## Parsers -/

/-- The token at which a parser looks is one that the lexer may give. -/
def Cursor.Genuine (c : Cursor) : Prop := ∀ token ∈ c.token, token.Genuine

/-- Whatever the parser gives has the property, and it leaves the cursor at a token of the
lexer. -/
def Yields {α : Type} (p : Parser α) (q : α → Prop) : Prop :=
  ∀ c a c', c.Genuine → p c = .ok (a, c') → q a ∧ c'.Genuine

/-- The parser leaves the cursor at a token of the lexer, whatever it gives. -/
def Lexes {α : Type} (p : Parser α) : Prop := Yields p fun _ => True

section Rules

variable {α β : Type} {p : Parser α} {f : α → Parser β} {q : α → Prop} {r : β → Prop}

theorem Yields.lexes (h : Yields p q) : Lexes p :=
  fun c a c' hc hp => ⟨trivial, (h c a c' hc hp).2⟩

theorem Yields.mono {q' : α → Prop} (h : Yields p q) (hq : ∀ a, q a → q' a) : Yields p q' :=
  fun c a c' hc hp => (h c a c' hc hp).imp_left (hq a)

theorem Yields.bind (hp : Yields p q) (hf : ∀ a, q a → Yields (f a) r) : Yields (p >>= f) r := by
  intro c b c' hc h
  obtain ⟨⟨a, c₁⟩, ha, h⟩ := bind_eq_ok_iff.1 h
  obtain ⟨hqa, hc₁⟩ := hp c a c₁ hc ha
  exact hf a hqa c₁ b c' hc₁ h

theorem Lexes.yields (hp : Lexes p) (hf : ∀ a, Yields (f a) r) : Yields (p >>= f) r :=
  hp.bind fun a _ => hf a

theorem yields_pure {a : α} (h : q a) : Yields (pure a) q := by
  intro c a' c' hc h'
  obtain ⟨rfl, rfl⟩ := Prod.mk.inj (Except.ok.inj h')
  exact ⟨h, hc⟩

theorem yields_fail (e : Error) (q : α → Prop) : Yields (Parser.fail e) q := by
  intro c a c' hc h
  cases h

theorem yields_ite {b : Prop} [Decidable b] {p' : Parser α} (hp : Yields p q)
    (hp' : Yields p' q) : Yields (if b then p else p') q := by
  split
  · exact hp
  · exact hp'

theorem lexes_pure (a : α) : Lexes (pure a) := yields_pure trivial

theorem lexes_fail (e : Error) : Lexes (Parser.fail e : Parser α) := yields_fail e _

theorem Lexes.bind (hp : Lexes p) (hf : ∀ a, Lexes (f a)) : Lexes (p >>= f) := hp.yields hf

theorem lexes_ite {b : Prop} [Decidable b] {p' : Parser α} (hp : Lexes p) (hp' : Lexes p') :
    Lexes (if b then p else p') := yields_ite hp hp'

end Rules

namespace Parser

variable {α : Type} {item : Parser α} {q : α → Prop}

/-! ### Single tokens -/

theorem yields_peek : Yields peek fun token => ∀ t ∈ token, t.Genuine := by
  intro c token c' hc h
  obtain ⟨rfl, rfl⟩ := Prod.mk.inj (Except.ok.inj h)
  exact ⟨hc, hc⟩

theorem lexes_peek : Lexes peek := yields_peek.lexes

theorem lexes_lookAhead : Lexes lookAhead := by
  intro c token c' hc h
  obtain ⟨⟨read, c₁⟩, hread, h⟩ := bind_eq_ok_iff.1 h
  obtain ⟨read', -, hread⟩ := bind_eq_ok_iff.1 hread
  obtain ⟨-, rfl⟩ := Prod.mk.inj (Except.ok.inj hread)
  obtain ⟨-, rfl⟩ := Prod.mk.inj (Except.ok.inj h)
  exact ⟨trivial, hc⟩

theorem lexes_advance : Lexes advance := by
  intro c u c' hc h
  obtain ⟨⟨read, c₁⟩, hlift, h⟩ := bind_eq_ok_iff.1 h
  obtain ⟨⟨token, rest⟩, hread, hlift⟩ := bind_eq_ok_iff.1 hlift
  obtain ⟨rfl, rfl⟩ := Prod.mk.inj (Except.ok.inj hlift)
  obtain ⟨-, rfl⟩ := Prod.mk.inj (Except.ok.inj h)
  refine ⟨trivial, fun t ht => ?_⟩
  obtain rfl : token = some t := ht
  exact Token.genuine_of_read hread

theorem lexes_rounds : Lexes rounds := by
  intro c n c' hc h
  obtain ⟨-, rfl⟩ := Prod.mk.inj (Except.ok.inj h)
  exact ⟨trivial, hc⟩

theorem yields_unexpected (q : α → Prop) : Yields unexpected q :=
  lexes_peek.yields fun _ => yields_fail _ _

theorem yields_expected (wanted : Text) (q : α → Prop) : Yields (expected wanted) q :=
  lexes_peek.yields fun _ => yields_fail _ _

theorem lexes_unexpected : Lexes (unexpected : Parser α) := yields_unexpected _

theorem lexes_expected (wanted : Text) : Lexes (expected wanted : Parser α) := yields_expected _ _

theorem lexes_atPunctuator (p : Punctuator) : Lexes (atPunctuator p) :=
  lexes_peek.bind fun _ => lexes_pure _

theorem lexes_accept (p : Punctuator) : Lexes (accept p) :=
  (lexes_atPunctuator p).bind fun _ =>
    lexes_ite (lexes_advance.bind fun _ => lexes_pure _) (lexes_pure _)

theorem lexes_expect (p : Punctuator) : Lexes (expect p) :=
  (lexes_atPunctuator p).bind fun _ => lexes_ite lexes_advance (lexes_expected _)

theorem lexes_acceptWord (word : String) : Lexes (acceptWord word) :=
  (lexes_peek.bind fun _ => lexes_pure _).bind fun _ =>
    lexes_ite (lexes_advance.bind fun _ => lexes_pure _) (lexes_pure _)

theorem lexes_expectWord (word : String) : Lexes (expectWord word) :=
  (lexes_peek.bind fun _ => lexes_pure _).bind fun _ => lexes_ite lexes_advance (lexes_expected _)

theorem yields_name : Yields name IsName := by
  refine yields_peek.bind fun token htoken => ?_
  split
  · exact lexes_advance.yields fun _ => yields_pure (htoken _ rfl)
  · exact yields_expected _ _

theorem lexes_name : Lexes name := yields_name.lexes

/-! ### Repetition -/

theorem yields_itemsUntil (close : Punctuator) (h : Yields item q) (n : Nat) :
    Yields (itemsUntil close item n) fun as => ∀ a ∈ as, q a := by
  induction n with
  | zero => exact yields_unexpected _
  | succ n ih =>
    refine (lexes_accept close).yields fun closed => yields_ite (yields_pure (by simp)) ?_
    refine h.bind fun a ha => ih.bind fun as has => yields_pure ?_
    exact List.forall_mem_cons.2 ⟨ha, has⟩

theorem yields_any (opening close : Punctuator) (h : Yields item q) :
    Yields (any opening close item) fun as => ∀ a ∈ as, q a :=
  (lexes_expect opening).yields fun _ => lexes_rounds.yields fun n => yields_itemsUntil close h n

theorem lexes_many (opening close : Punctuator) (h : Lexes item) :
    Lexes (many opening close item) :=
  (lexes_expect opening).bind fun _ => h.bind fun _ => lexes_rounds.bind fun n =>
    (yields_itemsUntil close h n).lexes.bind fun _ => lexes_pure _

theorem lexes_optionalMany (opening close : Punctuator) (h : Lexes item) :
    Lexes (optionalMany opening close item) :=
  (lexes_atPunctuator opening).bind fun _ => lexes_ite (lexes_many _ _ h) (lexes_pure _)

theorem lexes_separated (separator : Punctuator) (h : Lexes item) :
    Lexes (separated separator item) := by
  have hfrom : ∀ n, Lexes (separatedFrom separator item n) := by
    intro n
    induction n with
    | zero => exact lexes_unexpected
    | succ n ih =>
      refine h.bind fun _ => (lexes_accept separator).bind fun _ => ?_
      exact lexes_ite (ih.bind fun _ => lexes_pure _) (lexes_pure _)
  exact (lexes_accept separator).bind fun _ => lexes_rounds.bind hfrom

theorem lexes_itemsAt (first : Punctuator) (h : Lexes item) (n : Nat) :
    Lexes (itemsAt first item n) := by
  induction n with
  | zero => exact lexes_unexpected
  | succ n ih =>
    refine (lexes_atPunctuator first).bind fun _ => lexes_ite ?_ (lexes_pure _)
    exact h.bind fun _ => ih.bind fun _ => lexes_pure _

/-! ### Values -/

theorem lexes_labelled (h : Lexes item) : Lexes (labelled item) :=
  lexes_name.bind fun _ => (lexes_expect _).bind fun _ => h.bind fun _ => lexes_pure _

theorem lexes_variableLiteral (constant : Bool) : Lexes (variableLiteral constant) := by
  refine lexes_peek.bind fun dollar => (lexes_expect _).bind fun _ => lexes_ite ?_ ?_
  · refine lexes_peek.bind fun token => ?_
    split
    · exact lexes_fail _
    · exact lexes_fail _
  · exact lexes_name.bind fun _ => lexes_pure _

theorem lexes_literalOf (constant : Bool) {items : Parser (List Literal)}
    {fields : Parser (List (Text × Literal))} (hi : Lexes items) (hf : Lexes fields) :
    Lexes (literalOf constant items fields) := by
  refine lexes_peek.bind fun token => ?_
  split
  · exact hi.bind fun _ => lexes_pure _
  · exact hf.bind fun _ => lexes_pure _
  · exact lexes_variableLiteral constant
  · exact lexes_advance.bind fun _ => lexes_pure _
  · exact lexes_advance.bind fun _ => lexes_pure _
  · exact lexes_advance.bind fun _ => lexes_pure _
  · exact lexes_advance.bind fun _ => lexes_pure _
  · exact lexes_advance.bind fun _ => lexes_pure _
  · exact lexes_unexpected

theorem lexes_literal (constant : Bool) (levels : Nat) : Lexes (literal constant levels) := by
  induction levels with
  | zero => exact lexes_literalOf constant (lexes_fail _) (lexes_fail _)
  | succ n ih =>
    exact lexes_literalOf constant (yields_any _ _ ih).lexes
      (yields_any _ _ (lexes_labelled ih)).lexes

theorem lexes_arguments (constant : Bool) (levels : Nat) : Lexes (arguments constant levels) :=
  lexes_optionalMany _ _ (lexes_labelled (lexes_literal constant levels))

theorem lexes_directive (constant : Bool) (levels : Nat) : Lexes (directive constant levels) :=
  (lexes_expect _).bind fun _ => lexes_name.bind fun _ =>
    (lexes_arguments constant levels).bind fun _ => lexes_pure _

theorem lexes_directives (constant : Bool) (levels : Nat) : Lexes (directives constant levels) :=
  lexes_rounds.bind fun n =>
    (lexes_itemsAt _ (lexes_directive constant levels) n).bind fun _ => lexes_pure _

/-! ### Selections -/

theorem yields_fragmentSelection (levels : Nat) {body : Parser (List Selection)}
    (h : Yields body Named) : Yields (fragmentSelection levels body) Selection.Named := by
  have hinline : ∀ condition, Yields (do return .inline condition (← body)) Selection.Named :=
    fun condition => h.bind fun selections hs => yields_pure (named_inline hs)
  refine (lexes_acceptWord "on").yields fun _ => yields_ite ?_ ?_
  · exact lexes_name.yields fun condition => (lexes_directives _ _).yields fun _ => hinline _
  · refine yields_peek.bind fun token htoken => ?_
    split
    · refine lexes_advance.yields fun _ => (lexes_directives _ _).yields fun _ => ?_
      exact yields_pure (named_spread (htoken _ rfl))
    · exact (lexes_directives _ _).yields fun _ => hinline none

/-- The rest of a field, called by a name, after its names. -/
theorem yields_fieldAfter (levels : Nat) {body : Parser (List Selection)} (h : Yields body Named)
    (first : Option Text) {n : Text} (hn : IsName n) :
    Yields (do
      let args ← arguments false levels
      let _ ← directives false levels
      if ← atPunctuator .braceOpen then
        return .nested ⟨first, n, args⟩ (← body)
      else
        return .leaf ⟨first, n, args⟩) Selection.Named := by
  refine (lexes_arguments _ _).yields fun args => (lexes_directives _ _).yields fun _ => ?_
  refine (lexes_atPunctuator .braceOpen).yields fun _ => yields_ite ?_ ?_
  · exact h.bind fun selections hs => yields_pure (named_nested hn hs)
  · exact yields_pure (named_leaf hn)

theorem yields_fieldSelection (levels : Nat) {body : Parser (List Selection)}
    (h : Yields body Named) : Yields (fieldSelection levels body) Selection.Named := by
  refine yields_name.bind fun first hfirst => (lexes_accept .colon).yields fun _ => ?_
  -- the field is called by the second name, if there is one
  refine yields_ite ?_ ?_
  · exact yields_name.bind fun n hn => yields_fieldAfter levels h (some first) hn
  · exact yields_fieldAfter levels h none hfirst

theorem yields_selectionSet (levels : Nat) : Yields (selectionSet levels) Named := by
  induction levels with
  | zero => exact yields_fail _ _
  | succ n ih =>
    refine (yields_any .braceOpen .braceClose ?_).mono fun selections => named_iff.2
    refine (lexes_accept .spread).yields fun _ => ?_
    exact yields_ite (yields_fragmentSelection n ih) (yields_fieldSelection n ih)

/-! ### Operations and fragments -/

theorem lexes_typeReferenceOf {item : Parser Unit} (h : Lexes item) :
    Lexes (typeReferenceOf item) := by
  refine (lexes_atPunctuator .bracketOpen).bind fun _ => ?_
  have hbang : Lexes (do let _ ← accept .bang) := (lexes_accept .bang).bind fun _ => lexes_pure _
  exact lexes_ite (h.bind fun _ => hbang) (lexes_name.bind fun _ => hbang)

theorem lexes_typeReference (levels : Nat) : Lexes (typeReference levels) := by
  induction levels with
  | zero => exact lexes_typeReferenceOf ((lexes_expect _).bind fun _ => lexes_fail _)
  | succ n ih =>
    exact lexes_typeReferenceOf ((lexes_expect _).bind fun _ => ih.bind fun _ => lexes_expect _)

theorem lexes_description : Lexes description := by
  refine lexes_peek.bind fun token => ?_
  split
  · exact lexes_ite lexes_advance (lexes_pure _)
  · exact lexes_pure _

theorem lexes_defaultValue : Lexes defaultValue :=
  (lexes_accept _).bind fun _ =>
    lexes_ite ((lexes_literal _ _).bind fun _ => lexes_pure _) (lexes_pure _)

theorem lexes_variableDefinition : Lexes variableDefinition :=
  lexes_description.bind fun _ => (lexes_expect _).bind fun _ => lexes_name.bind fun _ =>
    (lexes_expect _).bind fun _ => (lexes_typeReference _).bind fun _ =>
      lexes_defaultValue.bind fun _ => (lexes_directives _ _).bind fun _ => lexes_pure _

theorem yields_operationAfter (operationType : OperationType) :
    Yields (operationAfter operationType) fun o => Named o.body := by
  have hrest : ∀ operationName : Option Text, Yields (do
      let _ ← optionalMany .parenOpen .parenClose variableDefinition
      let _ ← directives false depthLimit
      let body ← selectionSet depthLimit
      return ({ operationType, name := operationName, body } : Operation))
      fun o => Named o.body := by
    intro operationName
    refine (lexes_optionalMany _ _ lexes_variableDefinition).yields fun _ => ?_
    refine (lexes_directives _ _).yields fun _ => ?_
    exact (yields_selectionSet _).bind fun body hbody => yields_pure hbody
  refine lexes_peek.yields fun token => ?_
  split
  · exact lexes_advance.yields fun _ => hrest (some _)
  · exact hrest none

theorem yields_fragmentAfter : Yields fragmentAfter fun f => Named f.body := by
  refine lexes_peek.yields fun token => yields_ite (yields_unexpected _) ?_
  refine lexes_name.yields fun fragmentName => (lexes_expectWord _).yields fun _ => ?_
  refine lexes_name.yields fun condition => (lexes_directives _ _).yields fun _ => ?_
  exact (yields_selectionSet _).bind fun body hbody => yields_pure hbody

/-! ### Type system -/

theorem lexes_rootOperation : Lexes rootOperation :=
  lexes_name.bind fun _ => lexes_ite
    ((lexes_expect _).bind fun _ => lexes_name.bind fun _ => lexes_pure _) (lexes_fail _)

theorem lexes_interfaces : Lexes interfaces :=
  (lexes_acceptWord _).bind fun _ =>
    lexes_ite ((lexes_separated _ lexes_name).bind fun _ => lexes_pure _) (lexes_pure _)

theorem lexes_inputValue : Lexes inputValue :=
  lexes_description.bind fun _ => lexes_name.bind fun _ => (lexes_expect _).bind fun _ =>
    (lexes_typeReference _).bind fun _ => lexes_defaultValue.bind fun _ =>
      (lexes_directives _ _).bind fun _ => lexes_pure _

theorem lexes_argumentDefinitions : Lexes argumentDefinitions :=
  (lexes_optionalMany _ _ lexes_inputValue).bind fun _ => lexes_pure _

theorem lexes_fieldDefinition : Lexes fieldDefinition :=
  lexes_description.bind fun _ => lexes_name.bind fun _ =>
    lexes_argumentDefinitions.bind fun _ => (lexes_expect _).bind fun _ =>
      (lexes_typeReference _).bind fun _ => (lexes_directives _ _).bind fun _ => lexes_pure _

theorem lexes_unionMembers : Lexes unionMembers :=
  (lexes_accept _).bind fun _ =>
    lexes_ite ((lexes_separated _ lexes_name).bind fun _ => lexes_pure _) (lexes_pure _)

theorem lexes_enumValue : Lexes enumValue := by
  have hname : Lexes enumValueName := by
    refine lexes_peek.bind fun token => ?_
    split
    · exact lexes_ite (lexes_fail _) (lexes_name.bind fun _ => lexes_pure _)
    · exact lexes_expected _
  exact lexes_description.bind fun _ => hname.bind fun _ =>
    (lexes_directives _ _).bind fun _ => lexes_pure _

theorem lexes_directiveLocation : Lexes directiveLocation :=
  lexes_name.bind fun _ => lexes_ite (lexes_pure _) (lexes_fail _)

theorem lexes_itemBody (item : TypeSystemItem) : Lexes (itemBody item) := by
  have hblock : ∀ {part : Parser Unit}, Lexes part →
      Lexes (do return !(← optionalMany .braceOpen .braceClose part).isEmpty) :=
    fun h => (lexes_optionalMany _ _ h).bind fun _ => lexes_pure _
  cases item with
  | objectType | interface => exact hblock lexes_fieldDefinition
  | union => exact lexes_unionMembers
  | enum => exact hblock lexes_enumValue
  | inputObject => exact hblock lexes_inputValue
  | schema | scalar | directive => exact lexes_pure _

theorem lexes_namedType (item : TypeSystemItem) : Lexes (namedType item) := by
  refine lexes_name.bind fun _ => ?_
  have hrest : ∀ implements, Lexes (do
      let directed ← directives true depthLimit
      let bodied ← itemBody item
      return implements || directed || bodied) := fun implements =>
    (lexes_directives _ _).bind fun _ => (lexes_itemBody item).bind fun _ => lexes_pure _
  exact lexes_ite (lexes_interfaces.bind hrest) ((lexes_pure _).bind hrest)

theorem lexes_itemAfter (item : TypeSystemItem) : Lexes (itemAfter item) := by
  cases item with
  | schema =>
    exact (lexes_directives _ _).bind fun _ =>
      (lexes_many _ _ lexes_rootOperation).bind fun _ => lexes_pure _
  | directive =>
    exact (lexes_expect _).bind fun _ => lexes_name.bind fun _ =>
      lexes_argumentDefinitions.bind fun _ => (lexes_directives _ _).bind fun _ =>
        (lexes_acceptWord _).bind fun _ => (lexes_expectWord _).bind fun _ =>
          (lexes_separated _ lexes_directiveLocation).bind fun _ => lexes_pure _
  | _ => exact (lexes_namedType _).bind fun _ => lexes_pure _

theorem lexes_extensionAfter (item : TypeSystemItem) : Lexes (extensionAfter item) := by
  cases item with
  | schema =>
    exact (lexes_directives _ _).bind fun _ =>
      (lexes_optionalMany _ _ lexes_rootOperation).bind fun _ => lexes_pure _
  | directive =>
    exact (lexes_expect _).bind fun _ => lexes_name.bind fun _ => lexes_directives _ _
  | _ => exact lexes_namedType _

/-! ### Definitions -/

theorem yields_extension : Yields extension Definition.Named := by
  refine lexes_lookAhead.yields fun next => ?_
  split
  · split
    · refine lexes_advance.yields fun _ => lexes_advance.yields fun _ => ?_
      refine (lexes_extensionAfter _).yields fun _ => ?_
      exact yields_ite (yields_pure named_typeSystem) (yields_unexpected _)
    · exact yields_fail _ _
  · exact yields_fail _ _

theorem yields_keywordDefinition (described : Bool) (word : Text) :
    Yields (keywordDefinition described word) Definition.Named := by
  have hstart : Lexes (do
      description
      advance) := lexes_description.bind fun _ => lexes_advance
  unfold keywordDefinition
  dsimp only
  split
  · refine hstart.yields fun _ => (lexes_itemAfter _).yields fun _ => ?_
    exact yields_pure named_typeSystem
  · split
    · refine hstart.yields fun _ => (yields_operationAfter _).bind fun o ho => ?_
      exact yields_pure (named_operation ho)
    · refine yields_ite ?_ (yields_ite (yields_fail _ _) (yields_ite ?_ (yields_unexpected _)))
      · refine hstart.yields fun _ => yields_fragmentAfter.bind fun f hf => ?_
        exact yields_pure (named_fragment hf)
      · exact yields_extension

theorem yields_definition : Yields definition Definition.Named := by
  refine (lexes_atPunctuator .braceOpen).yields fun _ => yields_ite ?_ ?_
  · refine (yields_selectionSet _).bind fun body hbody => ?_
    exact yields_pure (named_operation hbody)
  · refine lexes_peek.yields fun token => ?_
    refine yields_ite (lexes_lookAhead.yields fun keyword => ?_)
      (lexes_peek.yields fun keyword => ?_)
    all_goals
      dsimp only
      split
      · exact yields_keywordDefinition _ _
      · exact yields_fail _ _
      · exact yields_fail _ _

theorem yields_definitionsFrom (n : Nat) :
    Yields (definitionsFrom n) fun ds => ∀ d ∈ ds, d.Named := by
  induction n with
  | zero => exact yields_unexpected _
  | succ n ih =>
    refine yields_definition.bind fun d hd => lexes_peek.yields fun token => ?_
    split
    · exact yields_pure (by simpa using hd)
    · exact ih.bind fun ds hds => yields_pure (List.forall_mem_cons.2 ⟨hd, hds⟩)

theorem yields_document : Yields document fun d => ∀ x ∈ d, x.Named :=
  lexes_advance.yields fun _ => lexes_rounds.yields yields_definitionsFrom

end Parser

/-- In a document that is read, fields and spreads are called by names. -/
theorem named_of_parse {t : Text} {d : Document} (h : parse t = .ok d) : ∀ x ∈ d, x.Named := by
  unfold parse at h
  cases hrun : Parser.document.run (.start t) with
  | error e =>
    rw [hrun] at h
    cases h
  | ok r =>
    rw [hrun] at h
    obtain rfl := Except.ok.inj h
    have hstart : (Cursor.start t).Genuine := fun _ ht => by cases ht
    exact (Parser.yields_document _ _ _ hstart hrun).1

end GraphQL

end QueryDiagram

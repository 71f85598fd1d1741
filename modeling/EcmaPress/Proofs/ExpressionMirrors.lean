import EcmaPress.Proofs.Mirrors
import EcmaPress.Proofs.Operators

/-!
# The grammar of expressions looks at tokens only

Every parser of expressions mirrors itself if the parsers of the next inner level do.
-/

namespace EcmaPress

/-- All places forgotten. -/
def Relabeling.bare : Relabeling :=
  .unplaced Identifier.name

@[simp] theorem Relabeling.bare_place (pos : Position) : bare.place pos = .start := rfl

theorem Relabeling.bare_identifier {id id' : Identifier} (h : id.name = id'.name) :
    bare.identifier id = bare.identifier id' := by
  simp [identifier, bare, unplaced, h]

theorem Relabeling.bare_identifiers {ids ids' : List Identifier}
    (h : ids.map Identifier.name = ids'.map Identifier.name) :
    ids.map bare.identifier = ids'.map bare.identifier := by
  have hname : bare.identifier = (fun name => (⟨name, .start⟩ : Identifier)) ∘ Identifier.name := rfl
  rw [hname, ← List.map_map, ← List.map_map, h]

section

variable (t : Token) (pos : Position)

@[simp] theorem Token.unaryOperator?_placed :
    (t.placed pos).unaryOperator? = t.unaryOperator? := rfl

@[simp] theorem Token.updateOperator?_placed :
    (t.placed pos).updateOperator? = t.updateOperator? := rfl

@[simp] theorem Token.binaryOperator?_placed (noIn : Bool) :
    (t.placed pos).binaryOperator? noIn = t.binaryOperator? noIn := rfl

@[simp] theorem Token.assignOperator?_placed :
    (t.placed pos).assignOperator? = t.assignOperator? := rfl

end

open EcmaPress.Parser

/-- The parsers of a level mirror themselves. -/
structure Inner.Mirrors (inner : Inner) : Prop where
  statement : ∀ d, Parser.Mirrors (Statement.relabel .bare) inner.statement inner.statement d
  assignment : ∀ noIn d, Parser.Mirrors (Expression.relabel .bare) (inner.assignment noIn)
    (inner.assignment noIn) d
  unary : ∀ d, Parser.Mirrors (Expression.relabel .bare) inner.unary inner.unary d
  newExpression : ∀ d, d.token.isEnd = false →
    Parser.Mirrors (Expression.relabel .bare) inner.newExpression inner.newExpression d

namespace Grammar

variable {inner : Inner} (h : inner.Mirrors)

include h

/-! ### Lists of statements and expressions -/

theorem mirrors_expression (noIn : Bool) (d : Cursor) :
    Mirrors (Expression.relabel .bare) (expression inner noIn) (expression inner noIn) d := by
  refine .bind (.separated (h.assignment noIn) d) fun xs ys m _ hxs => ?_
  match xs, ys with
  | [], [] => exact .pure rfl
  | [x], [y] => exact .pure (List.cons.inj hxs).1
  | x :: x' :: xs, y :: y' :: ys =>
    refine .pure ?_
    rw [Expression.relabel, Expression.relabel, relabelExpressions_eq, relabelExpressions_eq, hxs]
  | [], _ :: _ | _ :: _, [] | [_], _ :: _ :: _ | _ :: _ :: _, [_] => simp at hxs

theorem mirrors_parenthesized (d : Cursor) :
    Mirrors (Expression.relabel .bare) (parenthesized inner) (parenthesized inner) d :=
  .bind .expect fun _ _ m _ _ => .bind (mirrors_expression h false m) fun _ _ _ _ hx =>
    .bind .expect fun _ _ _ _ _ => .pure hx

theorem mirrors_statementUnless {stop : Token → Bool}
    (hstop : ∀ (t : Token) pos, stop (t.placed pos) = stop t) (d : Cursor) :
    Mirrors (Option.map (Statement.relabel .bare)) (statementUnless inner stop)
      (statementUnless inner stop) d := by
  refine .peek fun pos => .ite (by rw [hstop]) (fun _ => .pure rfl) fun _ => ?_
  exact .ite .rfl (fun _ => .unexpected) fun _ => (h.statement d).some

theorem mirrors_statementsUntil {stop : Token → Bool}
    (hstop : ∀ (t : Token) pos, stop (t.placed pos) = stop t) (d : Cursor) :
    Mirrors (List.map (Statement.relabel .bare)) (statementsUntil inner stop)
      (statementsUntil inner stop) d :=
  .many (mirrors_statementUnless h hstop) d

theorem mirrors_block (d : Cursor) :
    Mirrors (List.map (Statement.relabel .bare)) (block inner) (block inner) d := by
  refine .bind .expect fun _ _ m _ _ =>
    .bind (mirrors_statementsUntil h (fun _ _ => rfl) m) fun xs ys n hys hxs => ?_
  have hend : n.token.isEnd = false := Token.is_isEnd (statementsUntil_end hys)
  exact .bind (.advance hend) fun _ _ _ _ _ => .pure hxs

omit h in
theorem mirrors_parameters (d : Cursor) :
    Mirrors (List.map Identifier.name) parameters parameters d :=
  .inParens (fun _ => .identifier) d

omit h in
theorem mirrors_accessorParameters (kind : AccessorKind) (d : Cursor) :
    Mirrors (List.map Identifier.name) (accessorParameters kind) (accessorParameters kind) d := by
  cases kind with
  | get => exact .bind .expect fun _ _ _ _ _ => .bind .expect fun _ _ _ _ _ => .pure rfl
  | set =>
    exact .bind .expect fun _ _ _ _ _ => .bind .identifier fun _ _ _ _ hid =>
      .bind .expect fun _ _ _ _ _ => .pure (congrArg ([·]) hid)

theorem mirrors_functionParts {params : Parser (List Identifier)}
    (hparams : ∀ d, Mirrors (List.map Identifier.name) params params d) (d : Cursor) :
    Mirrors (Prod.map (List.map Identifier.name) (List.map (Statement.relabel .bare)))
      (functionParts inner params) (functionParts inner params) d :=
  .bind (hparams d) fun _ _ m _ hids => .bind (mirrors_block h m) fun _ _ _ _ hbody =>
    .pure (Prod.ext hids hbody)

theorem mirrors_arguments (d : Cursor) :
    Mirrors (List.map (Expression.relabel .bare)) (arguments inner) (arguments inner) d :=
  .inParens (h.assignment false) d

/-! ### Operands -/

omit h in
theorem mirrors_itemEnd (close : String) (d : Cursor) :
    Mirrors id (itemEnd close) (itemEnd close) d :=
  .peek fun _ => .ite .rfl (fun _ => .pure rfl) fun _ => .bind .expect fun _ _ _ _ _ => .pure rfl

theorem mirrors_element (d : Cursor) :
    Mirrors (Option.map (Element.relabel .bare)) (element inner) (element inner) d := by
  refine .bind .eat fun x y m _ hxy => ?_
  obtain rfl : x = y := hxy
  refine .ite .rfl (fun _ => .pure rfl) fun _ => .bind .eat fun x y m _ hxy => ?_
  obtain rfl : x = y := hxy
  refine .ite .rfl (fun _ => .pure rfl) fun _ => ?_
  refine .bind (h.assignment false m) fun x y m _ hxy => .bind (mirrors_itemEnd "]" m) fun _ _ _ _ _ => ?_
  exact .pure (by simp [Element.relabel, hxy])

theorem mirrors_array {d : Cursor} (hend : d.token.isEnd = false) :
    Mirrors (Expression.relabel .bare) (array inner) (array inner) d :=
  .bind (.advance hend) fun _ _ m _ _ => .bind (.many (mirrors_element h) m) fun _ _ _ _ hxs =>
    .pure (by simp [Expression.relabel, relabelElements_eq, hxs])

omit h in
theorem mirrors_propertyKey (d : Cursor) :
    Mirrors PropertyKey.raw propertyKey propertyKey d := by
  refine .peek fun pos => ?_
  have hkey (hend : d.token.isEnd = false) :
      Mirrors PropertyKey.raw (advance >>= fun token => pure ⟨token.text, token.pos⟩)
        (advance >>= fun token => pure ⟨token.text, token.pos⟩) d :=
    .bind (.advance hend) fun _ _ _ _ ht => .pure (Token.unplaced_eq.mp ht).2.1
  rw [Token.kind_placed]
  cases hkind : d.token.kind with
  | name | string | number => exact hkey (by simp [Token.isEnd, hkind])
  | punct | regex | endOfText => exact .unexpected

omit h in
theorem relabel_function {pos pos' : Position} {id id' : Option Identifier}
    {parts parts' : List Identifier × List Statement}
    (hid : id.map Identifier.name = id'.map Identifier.name)
    (hparts : parts.map (List.map Identifier.name) (List.map (Statement.relabel .bare)) =
      parts'.map (List.map Identifier.name) (List.map (Statement.relabel .bare))) :
    (Function.mk pos id parts.1 parts.2).relabel .bare =
      (Function.mk pos' id' parts'.1 parts'.2).relabel .bare := by
  obtain ⟨hids, hbody⟩ := Prod.ext_iff.mp hparts
  have hnames : id.map Relabeling.bare.identifier = id'.map Relabeling.bare.identifier := by
    have hname : Relabeling.bare.identifier =
      (fun name => (⟨name, .start⟩ : Identifier)) ∘ Identifier.name := rfl
    rw [hname, ← Option.map_map, ← Option.map_map, hid]
  simp only [Prod.map_fst, Prod.map_snd] at hids hbody
  simp [Function.relabel, hnames, Relabeling.bare_identifiers hids, relabelStatements_eq, hbody]

theorem mirrors_property (d : Cursor) :
    Mirrors (Property.relabel .bare) (property inner) (property inner) d := by
  refine .bind (mirrors_propertyKey d) fun key key' m _ hkey => .peek fun pos => ?_
  have hkind : accessorKind? key = accessorKind? key' := by simp only [accessorKind?, hkey]
  have hkeys {key key' : PropertyKey} (hraw : key.raw = key'.raw) :
      Relabeling.bare.key key = Relabeling.bare.key key' := by
    simp [Relabeling.key, hraw]
  have hinit : Mirrors (Property.relabel .bare)
      (expect ":" >>= fun _ => inner.assignment false >>= fun value => pure (.init key value))
      (expect ":" >>= fun _ => inner.assignment false >>= fun value => pure (.init key' value)) m :=
    .bind .expect fun _ _ n _ _ => .bind (h.assignment false n) fun _ _ _ _ hx =>
      .pure (by rw [Property.relabel, Property.relabel, hkeys hkey, hx])
  rw [hkind, Token.is_placed]
  generalize m.token.is ":" = colon
  cases accessorKind? key' with
  | none => exact hinit
  | some kind =>
    cases colon with
    | true => exact hinit
    | false =>
      refine .bind (mirrors_propertyKey m) fun _ _ n _ hname =>
        .bind (mirrors_functionParts h (mirrors_accessorParameters kind) n) fun _ _ _ _ hparts => .pure ?_
      rw [Property.relabel, Property.relabel, hkeys hname, relabel_function rfl hparts]

theorem mirrors_propertyItem (d : Cursor) :
    Mirrors (Option.map (Property.relabel .bare)) (propertyItem inner) (propertyItem inner) d := by
  refine .bind .eat fun x y m _ hxy => ?_
  obtain rfl : x = y := hxy
  refine .ite .rfl (fun _ => .pure rfl) fun _ => .bind (mirrors_property h m) fun _ _ n _ hp =>
    .bind (mirrors_itemEnd "\x7d" n) fun _ _ _ _ _ => .pure (congrArg some hp)

theorem mirrors_object {d : Cursor} (hend : d.token.isEnd = false) :
    Mirrors (Expression.relabel .bare) (object inner) (object inner) d :=
  .bind (.advance hend) fun _ _ m _ _ => .bind (.many (mirrors_propertyItem h) m)
    fun _ _ _ _ hxs => .pure (by simp [Expression.relabel, relabelProperties_eq, hxs])

omit h in
theorem mirrors_literal {kind : LiteralKind} {d : Cursor} (hend : d.token.isEnd = false) :
    Mirrors (Expression.relabel .bare) (literal kind) (literal kind) d :=
  .bind (.advance hend) fun _ _ _ _ ht =>
    .pure (by simp [Expression.relabel, (Token.unplaced_eq.mp ht).2.1])

omit h in
/-- A regular expression is read again from its first sign. -/
theorem mirrors_regex {d : Cursor} (hslash : d.token.isSlash = true) :
    Mirrors (Expression.relabel .bare) regex regex d := by
  intro hkind y d' hy
  obtain ⟨_, r, hr, hy⟩ := bind_eq_ok.mp hy
  obtain ⟨m, hnext, hy⟩ := advance_bind_eq_ok.mp hy
  obtain ⟨rfl, rfl⟩ := pure_eq_ok.mp hy
  have hr : d.asRegex = .ok r := rescanRegex_eq_ok.mp hr
  refine ⟨[r.token], (Cursor.Takes.regex hslash hr hnext).reads, fun c vs hc hvs => ?_⟩
  obtain ⟨v, rfl, hv⟩ : ∃ v, vs = [v] ∧ v.unplaced = r.token.unplaced := by
    simpa [List.map_eq_cons_iff] using hvs
  obtain ⟨hvkind, hvtext, -⟩ := Token.unplaced_eq.mp hv
  have hoffered {s : Cursor} (hoffer : c.Offers v s) : c.asRegex = .ok s ∧ v = s.token := by
    cases hoffer with
    | plain hplain =>
      obtain ⟨n, -, htoken, -⟩ := Cursor.asRegex_eq_ok.mp hr
      exact absurd (hvkind.trans (by rw [htoken]; rfl)) hplain
    | regex _ hs => exact ⟨hs, rfl⟩
  constructor
  · intro n hn _
    cases hn with
    | more htake hrest =>
      cases hrest
      obtain ⟨s, hoffer, hnext'⟩ := Cursor.takes_iff.mp htake
      obtain ⟨hs, rfl⟩ := hoffered hoffer
      refine ⟨_, bind_eq_ok.mpr ⟨(), s, rescanRegex_eq_ok.mpr hs,
        advance_bind_eq_ok.mpr ⟨n, hnext', rfl⟩⟩, ?_⟩
      rw [Expression.relabel, Expression.relabel, hvtext]
      rfl
  · intro hstuck
    cases hstuck with
    | @here _ s _ _ _ hoffer herror =>
      have hrescan : rescanRegex c = .ok ((), s) := rescanRegex_eq_ok.mpr (hoffered hoffer).1
      exact ⟨_, (bind_run hrescan).trans (bind_error (advance_error herror))⟩
    | more _ hrest => cases hrest

omit h in
theorem mirrors_functionName (d : Cursor) :
    Mirrors (Option.map Identifier.name) functionName functionName d :=
  .peek fun _ => .ite .rfl (fun _ => .pure rfl) fun _ => Mirrors.identifier.some

theorem mirrors_functionExpression {d : Cursor} (hend : d.token.isEnd = false) :
    Mirrors (Expression.relabel .bare) (functionExpression inner) (functionExpression inner) d :=
  .bind (.advance hend) fun _ _ m _ _ => .bind (mirrors_functionName m) fun _ _ n _ hid =>
    .bind (mirrors_functionParts h mirrors_parameters n) fun _ _ _ _ hparts =>
      .pure (by rw [Expression.relabel, Expression.relabel, relabel_function hid hparts])

theorem mirrors_paren {d : Cursor} (hend : d.token.isEnd = false) :
    Mirrors (Expression.relabel .bare) (paren inner) (paren inner) d :=
  .bind (.advance hend) fun _ _ m _ _ => .bind (mirrors_expression h false m) fun _ _ _ _ hx =>
    .bind .expect fun _ _ _ _ _ => .pure (by simp [Expression.relabel, hx])

theorem mirrors_primary (d : Cursor) :
    Mirrors (Expression.relabel .bare) (primary inner) (primary inner) d := by
  refine .peek fun pos => ?_
  rw [Token.kind_placed, Token.text_placed]
  have hend : d.token.kind ≠ .endOfText → d.token.isEnd = false := by simp [Token.isEnd]
  split
  · next hkind => exact mirrors_literal (hend (by simp [hkind]))
  · next hkind => exact mirrors_literal (hend (by simp [hkind]))
  · next hkind _ =>
    exact .bind (.advance (hend (by simp [hkind]))) fun _ _ _ _ _ => .pure (by simp [Expression.relabel])
  · next hkind _ => exact mirrors_literal (hend (by simp [hkind]))
  · next hkind _ => exact mirrors_literal (hend (by simp [hkind]))
  · next hkind _ => exact mirrors_literal (hend (by simp [hkind]))
  · next hkind _ => exact mirrors_functionExpression h (hend (by simp [hkind]))
  · exact .bind .identifier fun _ _ _ _ hid => .pure (by simp [Expression.relabel, Relabeling.bare_identifier hid])
  · next hkind htext => exact mirrors_regex (by simp [Token.isSlash, Token.is, hkind, htext])
  · next hkind htext => exact mirrors_regex (by simp [Token.isSlash, Token.is, hkind, htext])
  · next hkind _ => exact mirrors_array h (hend (by simp [hkind]))
  · next hkind _ => exact mirrors_object h (hend (by simp [hkind]))
  · next hkind _ => exact mirrors_paren h (hend (by simp [hkind]))
  · exact .unexpected

/-! ### Calls, members and operators -/

theorem mirrors_member {object object' : Expression}
    (hobject : object.relabel .bare = object'.relabel .bare) (d : Cursor) :
    Mirrors (Expression.relabel .bare) (member inner object) (member inner object') d := by
  refine .bind .eat fun x y m _ hxy => ?_
  obtain rfl : x = y := hxy
  refine .ite .rfl (fun _ => .peek fun pos => ?_) fun _ => ?_
  · refine .ite .rfl (fun hname => ?_) fun _ => .unexpected
    have hkind : m.token.kind = .name := by simpa using hname
    refine .bind (.advance (by simp [Token.isEnd, hkind])) fun _ _ _ _ ht => .pure ?_
    have hname := (Token.unplaced_eq.mp ht).2.1
    simp [Expression.relabel, Relabeling.label, hobject, hname]
  · exact .bind .expect fun _ _ n _ _ => .bind (mirrors_expression h false n) fun _ _ _ _ hx =>
      .bind .expect fun _ _ _ _ _ => .pure (by rw [Expression.relabel, Expression.relabel, hobject, hx])

theorem mirrors_suffix {callee callee' : Expression}
    (hcallee : callee.relabel .bare = callee'.relabel .bare) (d : Cursor) :
    Mirrors (Expression.relabel .bare) (suffix inner callee) (suffix inner callee') d :=
  .peek fun _ => .ite .rfl
    (fun _ => .bind (mirrors_arguments h d) fun _ _ _ _ hxs =>
      .pure (by simp [Expression.relabel, relabelExpressions_eq, hcallee, hxs]))
    fun _ => mirrors_member h hcallee d

omit h in
theorem mirrors_chain {more : Token → Bool} (hmore : ∀ (t : Token) pos, more (t.placed pos) = more t)
    {link link' : Expression → Parser Expression}
    (hlink : ∀ base base', base.relabel .bare = base'.relabel .bare → ∀ d,
      Mirrors (Expression.relabel .bare) (link base) (link' base') d)
    (links : Nat) {base base' : Expression} (hbase : base.relabel .bare = base'.relabel .bare)
    (d : Cursor) :
    Mirrors (Expression.relabel .bare) (chain more link base links)
      (chain more link' base' links) d := by
  induction links generalizing base base' d with
  | zero => exact .peek fun _ => .ite (by rw [hmore]) (fun _ => .fail) fun _ => .pure hbase
  | succ links ih =>
    exact .peek fun _ => .ite (by rw [hmore])
      (fun _ => .bind (hlink base base' hbase d) fun _ _ m _ hx => ih hx m) fun _ => .pure hbase

theorem mirrors_newOperand (d : Cursor) :
    Mirrors (Expression.relabel .bare) (newOperand inner) (newOperand inner) d :=
  .peek fun _ => .ite .rfl (fun his => h.newExpression d (Token.is_isEnd his))
    fun _ => mirrors_primary h d

theorem mirrors_newArguments {pos pos' : Position} {callee callee' : Expression}
    (hcallee : callee.relabel .bare = callee'.relabel .bare) (d : Cursor) :
    Mirrors (Expression.relabel .bare) (newArguments inner pos callee)
      (newArguments inner pos' callee') d :=
  .peek fun _ => .ite .rfl
    (fun _ => .bind (mirrors_arguments h d) fun _ _ _ _ hxs =>
      .pure (by simp [Expression.relabel, relabelExpressions_eq, hcallee, hxs]))
    fun _ => .pure (by simp [Expression.relabel, hcallee])

theorem mirrors_newExpression {d : Cursor} (hend : d.token.isEnd = false) :
    Mirrors (Expression.relabel .bare) (newExpression inner) (newExpression inner) d :=
  .bind (.advance hend) fun _ _ m _ _ => .bind (mirrors_newOperand h m) fun _ _ n _ hbase =>
    .bind (mirrors_chain (fun _ _ => rfl) (fun _ _ hobject => mirrors_member h hobject) _ hbase n)
      fun _ _ k _ hcallee => mirrors_newArguments h hcallee k

theorem mirrors_callOperand (d : Cursor) :
    Mirrors (Expression.relabel .bare) (callOperand inner) (callOperand inner) d :=
  .peek fun _ => .ite .rfl (fun his => mirrors_newExpression h (Token.is_isEnd his))
    fun _ => mirrors_primary h d

theorem mirrors_leftHandSide (d : Cursor) :
    Mirrors (Expression.relabel .bare) (leftHandSide inner) (leftHandSide inner) d :=
  .bind (mirrors_callOperand h d) fun _ _ m _ hbase =>
    mirrors_chain (fun _ _ => rfl) (fun _ _ hcallee => mirrors_suffix h hcallee) _ hbase m

omit h in
theorem isReference_eq {x y : Expression} (hxy : x.relabel .bare = y.relabel .bare) :
    x.isReference = y.isReference := by
  rw [← Expression.isReference_relabel .bare, hxy, Expression.isReference_relabel]

omit h in
theorem mirrors_postfixRest {argument argument' : Expression}
    (hargument : argument.relabel .bare = argument'.relabel .bare) (d : Cursor) :
    Mirrors (Expression.relabel .bare) (postfixRest argument) (postfixRest argument') d := by
  refine .peek fun pos => ?_
  rw [Token.updateOperator?_placed, Token.newlineBefore_placed]
  cases hop : d.token.updateOperator? with
  | none => exact .pure hargument
  | some op =>
    cases d.token.newlineBefore with
    | true => exact .pure hargument
    | false =>
      refine .ite (by rw [isReference_eq hargument]) (fun _ => ?_) fun _ => .fail
      exact .bind (.advance (Token.is_isEnd (Token.updateOperator?_is hop))) fun _ _ _ _ _ =>
        .pure (by simp [Expression.relabel, hargument])

theorem mirrors_postfixUpdate (d : Cursor) :
    Mirrors (Expression.relabel .bare) (postfixUpdate inner) (postfixUpdate inner) d :=
  .bind (mirrors_leftHandSide h d) fun _ _ m _ hx => mirrors_postfixRest hx m

theorem mirrors_unary (d : Cursor) :
    Mirrors (Expression.relabel .bare) (unary inner) (unary inner) d := by
  refine .peek fun pos => ?_
  rw [Token.updateOperator?_placed, Token.unaryOperator?_placed]
  cases hunary : d.token.unaryOperator? with
  | some op =>
    exact .bind (.advance (Token.is_isEnd (Token.unaryOperator?_eq_some.mp hunary))) fun _ _ m _ _ =>
      .bind (h.unary m) fun _ _ _ _ hx => .pure (by simp [Expression.relabel, hx])
  | none =>
    cases hupdate : d.token.updateOperator? with
    | none => exact mirrors_postfixUpdate h d
    | some op =>
      refine .bind (.advance (Token.is_isEnd (Token.updateOperator?_is hupdate))) fun _ _ m _ _ =>
        .bind (h.unary m) fun _ _ n _ hx => ?_
      refine .ite (by rw [isReference_eq hx]) (fun _ => .pure (by simp [Expression.relabel, hx])) fun _ => ?_
      exact .of_error fun _ _ hrun => throw_eq_ok.mp hrun

theorem mirrors_binaryRest (noIn : Bool) (least links : Nat) {left left' : Expression}
    (hleft : left.relabel .bare = left'.relabel .bare) (d : Cursor) :
    Mirrors (Expression.relabel .bare) (binaryRest inner noIn least links left)
      (binaryRest inner noIn least links left') d := by
  induction hn : operatorsLeft least links using Nat.strongRecOn generalizing least links left left' d with
  | ind n ih =>
    subst hn
    rw [binaryRest, binaryRest]
    refine .peek fun pos => ?_
    rw [Token.binaryOperator?_placed]
    cases hop : d.token.binaryOperator? noIn with
    | none => exact .pure hleft
    | some op =>
      refine .ite .rfl (fun _ => .pure hleft) fun hleast => ?_
      cases links with
      | zero => exact .fail
      | succ links =>
        have hend := Token.is_isEnd ((Token.binaryOperator?_eq_some.mp hop).1)
        refine .bind (.advance hend) fun _ _ m _ _ => .bind (mirrors_unary h m) fun _ _ n _ hoperand =>
          .bind (ih _ (operatorsLeft_right op (by omega) _) _ _ hoperand n rfl) fun _ _ k _ hright => ?_
        exact ih _ (operatorsLeft_links _ _) _ _ (by simp [Expression.relabel, hleft, hright]) k rfl

theorem mirrors_binary (noIn : Bool) (d : Cursor) :
    Mirrors (Expression.relabel .bare) (binary inner noIn) (binary inner noIn) d :=
  .bind (mirrors_unary h d) fun _ _ m _ hx => mirrors_binaryRest h noIn _ _ hx m

theorem mirrors_conditionalRest (noIn : Bool) {test test' : Expression}
    (htest : test.relabel .bare = test'.relabel .bare) (d : Cursor) :
    Mirrors (Expression.relabel .bare) (conditionalRest inner noIn test)
      (conditionalRest inner noIn test') d := by
  refine .bind .eat fun x y m _ hxy => ?_
  obtain rfl : x = y := hxy
  refine .ite .rfl (fun _ => ?_) fun _ => .pure htest
  exact .bind (h.assignment false m) fun _ _ n _ hthen => .bind .expect fun _ _ k _ _ =>
    .bind (h.assignment noIn k) fun _ _ _ _ helse =>
      .pure (by simp [Expression.relabel, htest, hthen, helse])

theorem mirrors_conditional (noIn : Bool) (d : Cursor) :
    Mirrors (Expression.relabel .bare) (conditional inner noIn) (conditional inner noIn) d :=
  .bind (mirrors_binary h noIn d) fun _ _ m _ hx => mirrors_conditionalRest h noIn hx m

theorem mirrors_assignmentRest (noIn : Bool) {left left' : Expression}
    (hleft : left.relabel .bare = left'.relabel .bare) (d : Cursor) :
    Mirrors (Expression.relabel .bare) (assignmentRest inner noIn left)
      (assignmentRest inner noIn left') d := by
  refine .peek fun pos => ?_
  rw [Token.assignOperator?_placed]
  cases hop : d.token.assignOperator? with
  | none => exact .pure hleft
  | some op =>
    refine .ite (by rw [isReference_eq hleft]) (fun _ => ?_) fun _ => .fail
    exact .bind (.advance (Token.is_isEnd (Token.assignOperator?_is hop))) fun _ _ m _ _ =>
      .bind (h.assignment noIn m) fun _ _ _ _ hx => .pure (by simp [Expression.relabel, hleft, hx])

theorem mirrors_assignment (noIn : Bool) (d : Cursor) :
    Mirrors (Expression.relabel .bare) (assignment inner noIn) (assignment inner noIn) d :=
  .bind (mirrors_conditional h noIn d) fun _ _ m _ hx => mirrors_assignmentRest h noIn hx m

end Grammar
end EcmaPress

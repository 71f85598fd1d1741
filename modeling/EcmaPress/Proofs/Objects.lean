import EcmaPress.Proofs.Brackets

/-!
# Echoes of object literals

Keys, properties and accessors, and the literal that they make. A key keeps its spelling, so a
copy finds the same accessors as the original.
-/

namespace EcmaPress

open EcmaPress.Parser

variable {inner : Inner} {c c' : Cursor}

/-! ### Keys -/

/-- Whether a token may be a key. -/
def Token.isKey (t : Token) : Bool :=
  t.kind == .name || t.kind == .string || t.kind == .number

theorem Token.isKey_kind {t : Token} (h : t.isKey = true) :
    t.kind ≠ .punct ∧ t.kind ≠ .regex ∧ t.isEnd = false := by
  simp only [isKey, Bool.or_eq_true, beq_iff_eq] at h
  rcases h with (h | h) | h <;> simp [Token.isEnd, h]

theorem propertyKey_eq_ok {key : PropertyKey} :
    Grammar.propertyKey c = .ok (key, c') ↔
      c.token.isKey = true ∧ key = ⟨c.token.text, c.token.pos⟩ ∧ c.next = .ok c' := by
  have hread : ((fun t : Token => PropertyKey.mk t.text t.pos) <$> advance) c = .ok (key, c') ↔
      key = ⟨c.token.text, c.token.pos⟩ ∧ c.next = .ok c' := by
    simp only [map_eq_ok, advance_eq_ok]
    constructor
    · rintro ⟨t, ⟨rfl, hnext⟩, rfl⟩
      exact ⟨rfl, hnext⟩
    · rintro ⟨rfl, hnext⟩
      exact ⟨_, ⟨rfl, hnext⟩, rfl⟩
  unfold Grammar.propertyKey Token.isKey
  rw [peek_bind]
  cases hkind : c.token.kind <;> simp [hread, unexpected_eq_ok]

/-- What must not stand directly behind a key. -/
def KeepsKeys (drop : Bool) (ps : List Piece) : Prop :=
  Piece.Calm drop ps ∧
    (Piece.ahead drop false ps).any (·.2.passes fun s => s.toList.head? == some '.') = false

/-- The echo of a key. -/
structure KeyEcho (c : Cursor) (key : PropertyKey) (c' : Cursor) : Prop where
  next : c.next = .ok c'
  isKey : c.token.isKey = true
  leads : ∀ {ps : List Piece} {n : Cursor}, Traces c' ps n →
    Leads c (.mapped key.raw key.pos :: ps) n
  opens : ∀ ps : List Piece, Opens (.mapped key.raw key.pos :: ps)
  sits : ∀ drop ps, KeepsKeys drop ps → Piece.Sits drop ps →
    Piece.Sits drop (.mapped key.raw key.pos :: ps)
  again : ∀ (w : Wording) broken ps d d', w.Spells broken (.mapped key.raw key.pos :: ps) d d' →
    c.token.Same d.token ∧ ∃ m, Grammar.propertyKey d = .ok (⟨key.raw, d.token.pos⟩, m) ∧
      w.Spells false ps m d'

theorem KeyEcho.propertyKey {key : PropertyKey} (h : Grammar.propertyKey c = .ok (key, c')) :
    KeyEcho c key c' := by
  obtain ⟨hkey, rfl, hnext⟩ := propertyKey_eq_ok.mp h
  obtain ⟨hpunct, hregex, hend⟩ := Token.isKey_kind hkey
  have hspelled := Cursor.spelled hregex
  refine ⟨hnext, hkey, fun htraces => ?_, fun ps => ?_, fun drop ps hkeeps hsits => ?_,
    fun w broken ps d d' hspells => ?_⟩
  · refine .token hregex hend hnext (by decide) (by simp) (fun hcomma => ?_) htraces
    have hkind := hspelled.kindOf
    rw [hcomma] at hkind
    exact hpunct (Option.some.inj (hkind.symm.trans (by decide)))
  · exact ⟨_, ps, rfl, hspelled.beginsOperand hpunct hend⟩
  · exact Piece.sits_spelled hspelled hpunct hend (fun _ _ => hkeeps.2) hkeeps.1 hsits
  · obtain ⟨htext, hregex', -, -, m, hm, hrest⟩ := (Wording.spells_token (by decide)).mp hspells
    have hkind : c.token.kind = d.token.kind :=
      hspelled.kind_congr (Cursor.spelled hregex') htext.symm
    refine ⟨⟨hkind, htext.symm⟩, m, propertyKey_eq_ok.mpr ⟨?_, ?_, hm⟩, hrest⟩
    · rw [Token.isKey, ← hkind]
      exact hkey
    · rw [htext]

/-! ### Properties -/

/-- A property is an accessor if its key announces one and no colon follows. -/
theorem property_cases {p : Property} (h : Grammar.property inner c = .ok (p, c')) :
    ∃ key m, Grammar.propertyKey c = .ok (key, m) ∧
      ((m.token.is ":" = false ∧ ∃ kind name n parts, Grammar.accessorKind? key = some kind ∧
          Grammar.propertyKey m = .ok (name, n) ∧
          Grammar.functionParts inner (Grammar.accessorParameters kind) n = .ok (parts, c') ∧
          p = .accessor kind name (.mk key.pos none parts.1 parts.2)) ∨
        (m.token.is ":" = true ∧ ∃ n value, m.next = .ok n ∧
          inner.assignment false n = .ok (value, c') ∧ p = .init key value)) := by
  obtain ⟨key, m, hkey, h⟩ := bind_eq_ok.mp h
  refine ⟨key, m, hkey, ?_⟩
  rw [peek_bind] at h
  cases hcolon : m.token.is ":" with
  | true =>
    have h : (do let _ ← expect ":"; let value ← inner.assignment false; return .init key value :
        Parser Property) m = .ok (p, c') := by
      cases hkind : Grammar.accessorKind? key <;> rw [hkind, hcolon] at h <;> exact h
    obtain ⟨-, n, hnext, h⟩ := expect_bind_eq_ok.mp h
    obtain ⟨value, n', hvalue, h⟩ := bind_eq_ok.mp h
    obtain ⟨rfl, rfl⟩ := pure_eq_ok.mp h
    exact .inr ⟨rfl, n, value, hnext, hvalue, rfl⟩
  | false =>
    cases hkind : Grammar.accessorKind? key with
    | none =>
      rw [hkind, hcolon] at h
      obtain ⟨hcolon', -⟩ := expect_bind_eq_ok.mp h
      rw [hcolon] at hcolon'
      cases hcolon'
    | some kind =>
      rw [hkind, hcolon] at h
      obtain ⟨name, n, hname, h⟩ := bind_eq_ok.mp h
      obtain ⟨parts, n', hparts, h⟩ := bind_eq_ok.mp h
      obtain ⟨rfl, rfl⟩ := pure_eq_ok.mp h
      exact .inl ⟨rfl, kind, name, n, parts, rfl, hname, hparts, rfl⟩

theorem property_init {key : PropertyKey} {m n : Cursor} {value : Expression}
    (hkey : Grammar.propertyKey c = .ok (key, m)) (hcolon : m.token.is ":" = true)
    (hnext : m.next = .ok n) (hvalue : inner.assignment false n = .ok (value, c')) :
    Grammar.property inner c = .ok (.init key value, c') := by
  refine bind_eq_ok.mpr ⟨key, m, hkey, ?_⟩
  rw [peek_bind]
  have h : (do let _ ← expect ":"; let value ← inner.assignment false; return .init key value :
      Parser Property) m = .ok (.init key value, c') :=
    expect_bind_eq_ok.mpr ⟨hcolon, n, hnext, bind_eq_ok.mpr ⟨value, c', hvalue, rfl⟩⟩
  cases hkind : Grammar.accessorKind? key <;> rw [hcolon] <;> exact h

theorem property_accessor {key name : PropertyKey} {m n : Cursor} {kind : AccessorKind}
    {parts : List Identifier × List Statement}
    (hkey : Grammar.propertyKey c = .ok (key, m)) (hcolon : m.token.is ":" = false)
    (hkind : Grammar.accessorKind? key = some kind)
    (hname : Grammar.propertyKey m = .ok (name, n))
    (hparts : Grammar.functionParts inner (Grammar.accessorParameters kind) n = .ok (parts, c')) :
    Grammar.property inner c =
      .ok (.accessor kind name (.mk key.pos none parts.1 parts.2), c') := by
  refine bind_eq_ok.mpr ⟨key, m, hkey, ?_⟩
  rw [peek_bind, hkind, hcolon]
  exact bind_eq_ok.mpr ⟨name, n, hname, bind_eq_ok.mpr ⟨parts, c', hparts, rfl⟩⟩

theorem accessorKind?_keyword {key : PropertyKey} {kind : AccessorKind}
    (h : Grammar.accessorKind? key = some kind) : kind.keyword = key.raw := by
  unfold Grammar.accessorKind? at h
  split at h
  · next hget =>
    obtain rfl := Option.some.inj h
    exact (beq_iff_eq.mp hget).symm
  · split at h
    · next hset =>
      obtain rfl := Option.some.inj h
      exact (beq_iff_eq.mp hset).symm
    · cases h

theorem keepsKeys_sign {drop : Bool} {s : String} {origin : Option Position} {shape : Shape}
    {ps : List Piece} (hword : beginsWord s = false) (hpoint : (s.toList.head? == some '.') = false) :
    KeepsKeys drop (.token s origin shape :: ps) :=
  ⟨Piece.calm_sign hword, by simp [Piece.ahead, Piece.passes, hpoint]⟩

theorem Echo.property (hinner : inner.Echoes) {p : Property}
    (h : Grammar.property inner c = .ok (p, c')) :
    Echo (Grammar.property inner) Property.relabel c p.pieces p c' := by
  obtain ⟨key, m, hkey, hcases⟩ := property_cases h
  have hkey := KeyEcho.propertyKey hkey
  rcases hcases with ⟨hcolon, kind, name, n, parts, hkind, hname, hparts, rfl⟩ |
    ⟨hcolon, n, value, hnext, hvalue, rfl⟩
  · have hname := KeyEcho.propertyKey hname
    have hparts := ClosedEcho.functionParts hinner
      (fun _ _ _ => ClosedEcho.accessorParameters) hparts
    have hpieces : (Property.accessor kind name (.mk key.pos none parts.1 parts.2)).pieces =
        .mapped key.raw key.pos :: .space :: .mapped name.raw name.pos :: partsPieces parts := by
      simp [Property.pieces, accessorKind?_keyword hkind, partsPieces]
    rw [hpieces]
    refine ⟨hkey.leads (.layout rfl (hname.leads hparts.leads.traces).traces), hkey.opens _,
      fun w broken => hparts.firm w false, fun drop rest hcalm hsits => ?_,
      fun w broken d d' hspells hfollow => ?_⟩
    · have hquiet : isQuiet key.raw = true := by
        rw [← accessorKind?_keyword hkind]
        cases kind <;> decide
      exact (Piece.sits_quiet hquiet).mpr (hname.sits drop _
        (keepsKeys_sign (by decide) (by decide)) (hparts.sits drop rest hsits))
    · obtain ⟨-, m', hm', hspells₁⟩ := hkey.again w broken _ d d' hspells
      obtain ⟨hsame, n', hn', hspells₂⟩ :=
        hname.again w false _ m' d' (Wording.spells_space.mp hspells₁)
      obtain ⟨parts', hparts', hcopy⟩ := hparts.again w false n' d' hspells₂
      refine ⟨_, property_accessor hm' ((hsame.is_eq ":").symm.trans hcolon) hkind hn' hparts', ?_⟩
      obtain ⟨hparams, hbody⟩ := Prod.mk.inj hcopy
      simp only [Copies, Property.relabel, Function.relabel, hparams, hbody, Option.map_none]
      rfl
  · have hvalue := hinner.assignment _ _ _ _ hvalue
    refine ⟨hkey.leads (Leads.sign hcolon (by decide) hnext (.layout rfl hvalue.leads.traces)).traces,
      hkey.opens _, fun w broken => hvalue.firm w false, fun drop rest hcalm hsits => ?_,
      fun w broken d d' hspells hfollow => ?_⟩
    · exact hkey.sits drop _ (keepsKeys_sign (by decide) (by decide))
        ((Piece.sits_quiet (by decide)).mpr (hvalue.sits drop rest hcalm hsits))
    · obtain ⟨-, m', hm', hspells₁⟩ := hkey.again w broken _ d d' hspells
      obtain ⟨hcolon', -, n', hn', hspells₂⟩ := (Wording.spells_sign (by decide)).mp hspells₁
      obtain ⟨y, hy, hcopy⟩ :=
        hvalue.again w false n' d' (Wording.spells_space.mp hspells₂) hfollow
      refine ⟨_, property_init hm' hcolon' hn' hy, ?_⟩
      rw [Copies, Property.relabel, Property.relabel, hcopy]
      rfl

/-! ### Objects -/

theorem readsProperties : ReadsItems "\x7d" none (Grammar.property inner)
    (Grammar.propertyItem inner) := by
  intro c x c'
  constructor
  · intro h
    obtain ⟨his, m, hnext, h⟩ | ⟨hnot, h⟩ := eat_bind_eq_ok.mp h
    · obtain ⟨rfl, rfl⟩ := pure_eq_ok.mp h
      exact .inl ⟨his, rfl, hnext⟩
    · obtain ⟨p, m, hp, h⟩ := bind_eq_ok.mp h
      obtain ⟨_, n, hend, h⟩ := bind_eq_ok.mp h
      obtain ⟨rfl, rfl⟩ := pure_eq_ok.mp h
      exact .inr (.inr ⟨hnot, .inr rfl, p, m, rfl, hp, hend⟩)
  · rintro (⟨his, rfl, hnext⟩ | ⟨-, -, y, hy, -⟩ | ⟨hnot, -, p, m, rfl, hp, hend⟩)
    · exact eat_bind_eq_ok.mpr (.inl ⟨his, c', hnext, rfl⟩)
    · cases hy
    · exact eat_bind_eq_ok.mpr (.inr ⟨hnot, bind_eq_ok.mpr ⟨p, m, hp,
        bind_eq_ok.mpr ⟨(), c', hend, rfl⟩⟩⟩)

theorem printsProperties {ls : List Piece} (hls : ls.all Piece.isLayout = true) :
    PrintsItems "\x7d" none Property.pieces
      (fun xs => propertiesPieces xs ++ (ls ++ [.sign "\x7d"])) := by
  refine ⟨⟨ls, hls, rfl⟩, fun y rest hy => ?_, fun y _ => ⟨[.newline], rfl, ?_⟩,
    fun y z rest _ => ⟨[.newline], [], rfl, rfl, ?_⟩⟩
  · cases hy
  · simp [propertiesPieces]
  · simp [propertiesPieces]

theorem ClosedEcho.object (hinner : inner.Echoes) {x : Expression}
    (his : c.token.is "\x7b" = true) (h : Grammar.object inner c = .ok (x, c')) :
    ClosedEcho (Grammar.object inner) Expression.relabel c x.pieces x c' := by
  obtain ⟨m, hnext, h⟩ := advance_bind_eq_ok.mp h
  obtain ⟨properties, n, hproperties, h⟩ := bind_eq_ok.mp h
  obtain ⟨rfl, rfl⟩ := pure_eq_ok.mp h
  obtain ⟨before, behind, hbefore, hbehind, hpieces⟩ : ∃ before behind : List Piece,
      before.all Piece.isLayout = true ∧ behind.all Piece.isLayout = true ∧
        (Expression.object c.token.pos properties).pieces = .mapped "\x7b" c.token.pos ::
          (before ++ (propertiesPieces properties ++ (behind ++ [.sign "\x7d"]))) := by
    cases properties with
    | nil => exact ⟨[], [], rfl, rfl, rfl⟩
    | cons p rest => exact ⟨[.indent], [.dedent, .newline], rfl, rfl, by simp [Expression.pieces]⟩
  have hecho : ItemsEcho _ Property.relabel m _ properties n :=
    .many (.inr rfl) readsProperties (printsProperties hbehind) (by simp)
      (fun _ _ _ hp => ⟨by simp, Echo.property hinner hp⟩) hproperties
  rw [hpieces]
  refine ⟨.mapped his (by decide) hnext (hecho.heads.layouts hbefore).traces, fun w broken => ?_,
    fun drop rest hsits => ?_, fun w broken d d' hspells => ?_⟩
  · rw [← List.append_assoc, ← List.append_assoc]
    exact pending_closing
  · refine (Piece.sits_quiet (by decide)).mpr ?_
    show Piece.Sits drop
      ((before ++ (propertiesPieces properties ++ (behind ++ [.sign "\x7d"]))) ++ rest)
    rw [List.append_assoc, Piece.sits_layout hbefore]
    exact hecho.sits drop rest hsits
  · obtain ⟨hd, -, m', hm', hspells'⟩ := (Wording.spells_sign (by decide)).mp hspells
    obtain ⟨m'', hlayout, hspells''⟩ := Wording.spells_append.mp hspells'
    obtain rfl := (Wording.spells_layout hbefore).mp hlayout
    obtain ⟨ys, hys, hcopy⟩ := hecho.again w _ m' d' hspells''
    refine ⟨_, advance_bind_eq_ok.mpr ⟨m', hm', bind_eq_ok.mpr ⟨ys, d', hys, rfl⟩⟩, ?_⟩
    simp only [Copies, Expression.relabel, relabelProperties_eq]
    exact congrArg (Expression.object .start) hcopy

end EcmaPress

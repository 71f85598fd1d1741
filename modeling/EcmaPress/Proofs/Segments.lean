import EcmaPress.Proofs.NewNames
import EcmaPress.Proofs.RoundTrip
import EcmaPress.Proofs.Tiling

/-!
# What segments tie together

Every segment of a printed program stands for one token of the source: it tells where in the
printed text this token, or the new name in its place, begins, and where the token begins in the
source. Segments come in the order of both texts.
-/

namespace EcmaPress

open Piece

/-! ### Places on a page -/

namespace Page

variable {style : Style} {renames : Renames}

/-- The place of a page is where its text ends, and the text does not end in the middle of a line
end. -/
structure Tracked (page : Page) : Prop where
  place : page.place = Place.after {} page.written.reverse
  last : page.written.head? ≠ some '\r'

theorem tracked_empty : ({} : Page).Tracked :=
  ⟨rfl, nofun⟩

theorem Tracked.seamless {page : Page} (h : page.Tracked) (rest : List Char) :
    Seamless page.written.reverse rest := by
  intro hlast
  rw [List.getLast?_reverse] at hlast
  exact absurd hlast h.last

theorem Tracked.raw {page : Page} (h : page.Tracked) {text : List Char}
    (htext : text.getLast? ≠ some '\r') : (page.raw text).Tracked := by
  constructor
  · rw [written_raw, List.reverse_append, List.reverse_reverse, Place.after_append _ (h.seamless _),
      ← h.place]
    rfl
  · rw [written_raw, List.head?_append, List.head?_reverse]
    cases hlast : text.getLast? with
    | none => exact h.last
    | some c => rwa [hlast] at htext

/-- White space in front of a token keeps a page tracked, and ties nothing. -/
theorem Tracked.indentation {page : Page} (h : page.Tracked) {indents : List (List Char)}
    (hindents : ∀ indent ∈ indents, indent.getLast? ≠ some '\r') :
    (indents.foldl Page.raw page).Tracked ∧
      (indents.foldl Page.raw page).segments = page.segments := by
  induction indents generalizing page with
  | nil => exact ⟨h, rfl⟩
  | cons indent indents ih =>
    obtain ⟨hfirst, hrest⟩ := List.forall_mem_cons.mp hindents
    obtain ⟨htracked, hsegments⟩ := ih (h.raw hfirst) hrest
    exact ⟨htracked, hsegments⟩

theorem Tracked.beginLine {page : Page} (h : page.Tracked)
    (hindent : ∀ indent ∈ style.indent, indent.toList.getLast? ≠ some '\r') :
    (page.beginLine style).Tracked ∧ (page.beginLine style).segments = page.segments := by
  unfold Page.beginLine
  split
  · cases hstyle : style.indent with
    | none => exact ⟨⟨h.place, h.last⟩, rfl⟩
    | some indent =>
      have hstart : ({ page with lineStart := false } : Page).Tracked := ⟨h.place, h.last⟩
      exact hstart.indentation fun text htext =>
        List.eq_of_mem_replicate htext ▸ hindent indent hstyle
  · exact ⟨h, rfl⟩

/-- A token is written where its white space ends, and the segment that ties it tells this
place. -/
theorem Tracked.token {page : Page} (h : page.Tracked)
    (hindent : ∀ indent ∈ style.indent, indent.toList.getLast? ≠ some '\r') {first : Char}
    {more : List Char} (hlast : (first :: more).getLast? ≠ some '\r') (origin : Option Position)
    (oldName : Option String) (shape : Shape) :
    (page.token style (first :: more) origin oldName shape).Tracked ∧
      (∀ rest, Seamless (page.written.reverse ++ page.lead style first) rest) ∧
      (page.token style (first :: more) origin oldName shape).segments =
        (origin.map fun pos => (⟨Place.after {} (page.written.reverse ++ page.lead style first),
          .ofPosition pos, oldName⟩ : Segment)).toList ++ page.segments := by
  obtain ⟨hbegun, hsegments⟩ := h.beginLine hindent
  -- The page behind the white space in front of the token.
  obtain ⟨ready, hready, hreadyTracked, hreadySegments, hreadyWritten⟩ : ∃ ready : Page,
      (let begun := page.beginLine style
        if begun.needsSpace first then begun.raw [' '] else begun) = ready ∧ ready.Tracked ∧
      ready.segments = page.segments ∧
      ready.written = (page.lead style first).reverse ++ page.written := by
    refine ⟨_, rfl, ?_, ?_, ?_⟩
    · dsimp only
      split
      · exact hbegun.raw (by decide)
      · exact hbegun
    · dsimp only
      split <;> exact hsegments
    · unfold lead
      dsimp only
      split <;> simp [written_beginLine]
  have hwritten : ready.written.reverse = page.written.reverse ++ page.lead style first := by
    rw [hreadyWritten, List.reverse_append, List.reverse_reverse]
  have hplace := hreadyTracked.place
  rw [hwritten] at hplace
  have htoken := hreadyTracked.raw hlast
  unfold Page.token
  simp only [hready]
  refine ⟨⟨htoken.place, htoken.last⟩, hwritten ▸ hreadyTracked.seamless, ?_⟩
  cases origin with
  | none => exact hreadySegments
  | some pos =>
    rw [← hplace, ← hreadySegments]
    rfl

end Page

/-! ### Segments of pieces -/

/-- Segments that pieces leave in a text, from an offset on: each tells where the text of its piece
begins, and what the piece is tied to. -/
inductive Marked (w : Wording) (renames : Renames) (text : List Char) :
    Nat → List Piece → List Segment → Prop
  | done {start : Nat} : Marked w renames text start [] []
  | silent {start i : Nat} {p : Piece} {ps : List Piece} {segments : List Segment} :
      p.tie renames = none → start ≤ i → Marked w renames text i ps segments →
      Marked w renames text start (p :: ps) segments
  | tied {start i : Nat} {p : Piece} {ps : List Piece} {s : String} {pos : Position}
      {oldName : Option String} {segments : List Segment} :
      p.tie renames = some (pos, oldName) → p.text w = some s → start ≤ i → s ≠ "" →
      s.toList <+: text.drop i → Seamless (text.take i) (text.drop i) →
      Marked w renames text (i + s.length) ps segments →
      Marked w renames text start (p :: ps)
        (⟨Place.after {} (text.take i), .ofPosition pos, oldName⟩ :: segments)

namespace Page

variable {style : Style} {renames : Renames}

/-- A piece that writes no text keeps a page tracked, and is tied to nothing. -/
theorem Tracked.silent {page : Page} (h : page.Tracked) {p : Piece}
    (hs : p.text (.ofStyle style renames) = none) :
    p.tie renames = none ∧ (page.set style renames p).Tracked ∧
      (page.set style renames p).segments = page.segments := by
  cases p with
  | token | name => cases hs
  | terminator last =>
    have hdrop : (last && style.dropSemicolons) = true := Piece.text_terminator_eq_none.mp hs
    have hset : page.set style renames (.terminator last) = { page with openEnd := true } := by
      simp only [set, if_pos hdrop]
    rw [hset]
    exact ⟨rfl, ⟨h.place, h.last⟩, rfl⟩
  | space =>
    simp only [set]
    split
    · exact ⟨rfl, h.raw (by decide), rfl⟩
    · exact ⟨rfl, h, rfl⟩
  | newline =>
    simp only [set]
    split
    · have hraw := h.raw (by decide : ['\n'].getLast? ≠ some '\r')
      exact ⟨rfl, ⟨hraw.place, hraw.last⟩, rfl⟩
    · exact ⟨rfl, h, rfl⟩
  | indent | dedent => exact ⟨rfl, ⟨h.place, h.last⟩, rfl⟩

/-- Pieces leave their segments on a page, which stays tracked. -/
theorem marked (hindent : ∀ indent ∈ style.indent, indent.toList.getLast? ≠ some '\r')
    {ps : List Piece} (htexts : ∀ p ∈ ps, ∀ s, p.text (.ofStyle style renames) = some s →
      s ≠ "" ∧ s.toList.getLast? ≠ some '\r') {page : Page} (h : page.Tracked) {text : List Char}
    (htext : text = page.written.reverse ++ page.allMarks style renames ps) :
    (ps.foldl (set style renames) page).Tracked ∧
      ∃ segments, (ps.foldl (set style renames) page).segments = segments.reverse ++ page.segments ∧
        Marked (.ofStyle style renames) renames text page.written.length ps segments := by
  induction ps generalizing page with
  | nil => exact ⟨h, [], rfl, .done⟩
  | cons p ps ih =>
    obtain ⟨hfirst, hrest⟩ := List.forall_mem_cons.mp htexts
    have hset : (page.set style renames p).written.reverse =
        page.written.reverse ++ page.marks style renames p := by
      rw [written_set, List.reverse_append, List.reverse_reverse]
    have htext' : text = (page.set style renames p).written.reverse ++
        (page.set style renames p).allMarks style renames ps := by
      rw [htext, hset, List.append_assoc]
      rfl
    rw [List.foldl_cons]
    cases hs : p.text (.ofStyle style renames) with
    | none =>
      obtain ⟨htie, htracked, hsegments⟩ := h.silent hs
      obtain ⟨hend, segments, hfold, hmarked⟩ := ih hrest htracked htext'
      refine ⟨hend, segments, hfold.trans (by rw [hsegments]), .silent htie ?_ hmarked⟩
      rw [written_set, List.length_append]
      exact Nat.le_add_left ..
    | some s =>
      obtain ⟨hne, hlast⟩ := hfirst s hs
      obtain ⟨origin, oldName, heq, htie⟩ := page.set_tied hs
      obtain ⟨first, more, hcons⟩ : ∃ first more, s.toList = first :: more :=
        List.exists_cons_of_ne_nil fun hnil => hne (String.toList_injective hnil)
      rw [hcons] at hlast
      have hmarks : page.marks style renames p = page.lead style first ++ s.toList := by
        simp only [marks, hs, hcons, tokenMarks]
      obtain ⟨htracked, hseamless, hsegments⟩ := h.token hindent hlast origin oldName p.shape
      rw [← hcons, ← heq] at htracked hsegments
      obtain ⟨hend, segments, hfold, hmarked⟩ := ih hrest htracked htext'
      rw [hsegments] at hfold
      have hlen : (page.set style renames p).written.length =
          (page.written.reverse ++ page.lead style first).length + s.length := by
        rw [← List.length_reverse, hset, hmarks, ← List.append_assoc, List.length_append,
          String.length_toList]
      rw [hlen] at hmarked
      have hsplit : text = (page.written.reverse ++ page.lead style first) ++
          (s.toList ++ (page.set style renames p).allMarks style renames ps) := by
        rw [htext, allMarks, hmarks]
        simp only [List.append_assoc]
      have hstart : page.written.length ≤ (page.written.reverse ++ page.lead style first).length := by
        rw [List.length_append, List.length_reverse]
        exact Nat.le_add_right ..
      cases origin with
      | none => exact ⟨hend, segments, hfold, .silent htie (by omega) hmarked⟩
      | some pos =>
        have htake : text.take (page.written.reverse ++ page.lead style first).length =
            page.written.reverse ++ page.lead style first := by
          rw [hsplit, List.take_left]
        refine ⟨hend, _ :: segments, ?_, .tied htie hs hstart hne ?_ ?_ hmarked⟩
        · rw [hfold, htake]
          simp
        · rw [hsplit, List.drop_left]
          exact List.prefix_append ..
        · rw [htake]
          exact hseamless _

end Page

/-! ### What segments tell -/

/-- A segment ties a token of a source to an offset of a printed text: the token begins in the
source where the segment says, and at the offset, which is where the segment says, the same token
is printed, or the new name of the token if the segment has the old one. What the segment says of
the source is the position of the token, counted from zero, if positions cover the source. -/
structure Segment.Ties (source printed : List Char) (renames : Renames) (s : Segment) (t : Token)
    (i : Nat) : Prop where
  generated : Place.after {} (printed.take i) = s.generated
  seam : Seamless (printed.take i) (printed.drop i)
  position : t.pos = Position.start.after (source.take t.pos.offset)
  origin : s.origin = .ofPosition t.pos
  exact : Position.Covers source → t.pos.line.toNat = s.origin.line.toNat + 1 ∧
    t.pos.column.toNat = s.origin.column.toNat + 1
  nonempty : t.text ≠ ""
  inSource : t.text.toList <+: source.drop t.pos.offset
  same : s.name = none → t.text.toList <+: printed.drop i
  renamed : ∀ old, s.name = some old → t.text = old ∧
    ∃ new, renames[t.pos.offset]? = some new ∧ new ≠ "" ∧ new.toList <+: printed.drop i

/-- One segment stands before another one in both texts. -/
def Segment.Before (a b : Segment) : Prop :=
  a.generated.Before b.generated ∧ a.origin.Before b.origin

section

variable {source printed : List Char} {style : Style} {renames : Renames}

/-- A piece is tied to the place of its token. It prints the text of the token, or the new name of
the token if it tells the old one. -/
theorem Piece.tied_of_fits {t : Token} {p : Piece} {s : String} {pos : Position}
    {oldName : Option String} (hfits : p.Fits .original t) (hstands : p.StandsFor t)
    (htie : p.tie renames = some (pos, oldName))
    (htext : p.text (.ofStyle style renames) = some s) :
    pos = t.pos ∧ (oldName = none ∧ s = t.text ∨
      oldName = some t.text ∧ renames[t.pos.offset]? = some s) := by
  cases p with
  | token text origin shape =>
    cases origin with
    | none => cases htie
    | some origin =>
      obtain ⟨rfl, rfl⟩ := Prod.mk.inj (Option.some.inj htie)
      have hprinted : text = s := Option.some.inj htext
      have hsame : text = t.text := Option.some.inj hfits.1
      exact ⟨hstands.symm, .inl ⟨rfl, hprinted.symm.trans hsame⟩⟩
  | name id =>
    obtain ⟨rfl, hold⟩ := Prod.mk.inj (Option.some.inj htie)
    have hprinted : renames[id.pos.offset]?.getD id.name = s := Option.some.inj htext
    have hsame : id.name = t.text := Option.some.inj hfits.1
    have hplace : t.pos = id.pos := hstands
    refine ⟨hplace.symm, ?_⟩
    rw [hplace]
    cases hnew : renames[id.pos.offset]? with
    | none =>
      rw [hnew] at hold hprinted
      exact .inl ⟨hold.symm, hprinted.symm.trans hsame⟩
    | some new =>
      rw [hnew] at hold hprinted
      exact .inr ⟨hold.symm.trans (congrArg some hsame), congrArg some hprinted⟩
  | _ => cases htie

/-- The segment of a piece ties the token of the piece. -/
theorem ties_of_fits {t : Token} {p : Piece} {start i : Nat} {s : String} {pos : Position}
    {oldName : Option String} (hread : t.Readable) (hfits : p.Fits .original t)
    (hstands : p.StandsFor t) (htiles : t.Tiles source start)
    (htie : p.tie renames = some (pos, oldName)) (htext : p.text (.ofStyle style renames) = some s)
    (hne : s ≠ "") (hprinted : s.toList <+: printed.drop i)
    (hseam : Seamless (printed.take i) (printed.drop i)) :
    Segment.Ties source printed renames
      ⟨Place.after {} (printed.take i), .ofPosition pos, oldName⟩ t i := by
  obtain ⟨rfl, hcase⟩ := p.tied_of_fits hfits hstands htie htext
  have hnonempty : t.text ≠ "" := by
    obtain ⟨first, more, hcons⟩ := hread.cons
    intro hempty
    rw [hempty] at hcons
    cases hcons
  have hposition := (htiles.position hnonempty).2
  refine ⟨rfl, hseam, hposition, rfl, fun hcovers => ?_, hnonempty, htiles.slice, fun hname => ?_,
    fun old hname => ?_⟩
  · have hfront := List.take_prefix t.pos.offset source
    obtain ⟨hline, hcolumn⟩ := htiles.exact hcovers
    have horigin := Place.ofPosition_start_after hcovers hfront
    rw [← hposition] at horigin
    obtain ⟨hline', hcolumn'⟩ := hcovers _ hfront
    dsimp only
    rw [horigin, hline, hcolumn]
    exact ⟨congrArg (· + 1) (UInt32.toNat_ofNat_of_lt' (Nat.lt_of_succ_lt hline')).symm,
      congrArg (· + 1) (UInt32.toNat_ofNat_of_lt' (Nat.lt_of_succ_lt hcolumn')).symm⟩
  · -- Without an old name the token is printed as it is.
    rcases hcase with ⟨-, rfl⟩ | ⟨hold, -⟩
    · exact hprinted
    · cases hold.symm.trans hname
  · rcases hcase with ⟨hold, -⟩ | ⟨hold, hnew⟩
    · cases hold.symm.trans hname
    · exact ⟨Option.some.inj (hold.symm.trans hname), s, hnew, hne, hprinted⟩

theorem lt_length_of_prefix {s : String} {text : List Char} {i : Nat} (hne : s ≠ "")
    (h : s.toList <+: text.drop i) : i < text.length := by
  have hlen := h.length_le
  have hpos : 0 < s.toList.length :=
    List.length_pos_iff.mpr fun hnil => hne (String.toList_injective hnil)
  rw [List.length_drop] at hlen
  omega

/-- A token is tied to an offset within the printed text. -/
theorem Segment.Ties.lt_length {s : Segment} {t : Token} {i : Nat}
    (h : s.Ties source printed renames t i) : i < printed.length := by
  cases hname : s.name with
  | none => exact lt_length_of_prefix h.nonempty (h.same hname)
  | some old =>
    obtain ⟨-, new, -, hne, hnew⟩ := h.renamed old hname
    exact lt_length_of_prefix hne hnew

/-- What is tied to a later offset stands behind, if places cover the printed text. -/
theorem Segment.Ties.before {a b : Segment} {t u : Token} {i j : Nat}
    (ha : a.Ties source printed renames t i) (hb : b.Ties source printed renames u j) (hij : i < j)
    (hcovers : Place.Covers printed) : a.generated.Before b.generated := by
  rw [← ha.generated, ← hb.generated]
  exact hcovers.before_of_take hij (Nat.le_of_lt hb.lt_length) ha.seam

/-- Later tokens stand behind in the source, if positions cover it. -/
theorem Segment.Ties.origin_before {a b : Segment} {t u : Token} {i j : Nat}
    (ha : a.Ties source printed renames t i) (hb : b.Ties source printed renames u j)
    (hoffset : t.pos.offset < u.pos.offset)
    (hseam : Seamless (source.take t.pos.offset) (source.drop t.pos.offset))
    (hcovers : Position.Covers source) : a.origin.Before b.origin := by
  have hu := lt_length_of_prefix hb.nonempty hb.inSource
  have hfits (n : Nat) : (Spot.inSource (source.take n)).Fits := by
    obtain ⟨hline, hcolumn⟩ := hcovers _ (List.take_prefix n source)
    exact ⟨Nat.lt_of_succ_lt hline, Nat.lt_of_succ_lt hcolumn⟩
  rw [ha.origin, hb.origin, ha.position, hb.position,
    Place.ofPosition_start_after hcovers (List.take_prefix ..),
    Place.ofPosition_start_after hcovers (List.take_prefix ..), Place.before_place (hfits _) (hfits _)]
  exact Spot.inSource_before hoffset (Nat.le_of_lt hu) hseam

/-- Segments tie some of the tokens, from an offset of each text on, in the order of both texts. -/
inductive Tied (source printed : List Char) (renames : Renames) (ts : List Token) :
    Nat → Nat → List Segment → Prop
  | done {start i : Nat} : Tied source printed renames ts start i []
  | cons {start i j : Nat} {t : Token} {s : Segment} {segments : List Segment} :
      t ∈ ts → start ≤ t.pos.offset → i ≤ j → s.Ties source printed renames t j →
      Seamless (source.take t.pos.offset) (source.drop t.pos.offset) →
      Tied source printed renames ts (t.pos.offset + 1) (j + 1) segments →
      Tied source printed renames ts start i (s :: segments)

theorem Tied.weaken {ts us : List Token} {start start' i i' : Nat} {segments : List Segment}
    (h : Tied source printed renames ts start i segments) (hts : ts ⊆ us) (hstart : start' ≤ start)
    (hi : i' ≤ i) : Tied source printed renames us start' i' segments := by
  induction h generalizing start' i' with
  | done => exact .done
  | cons ht hoffset hj hties hseam _ ih =>
    exact .cons (hts ht) (Nat.le_trans hstart hoffset) (Nat.le_trans hi hj) hties hseam
      (ih (Nat.le_refl _) (Nat.le_refl _))

theorem Tied.ties {ts : List Token} {start i : Nat} {segments : List Segment}
    (h : Tied source printed renames ts start i segments) : ∀ s ∈ segments, ∃ t ∈ ts, ∃ j,
      s.Ties source printed renames t j ∧ i ≤ j ∧ start ≤ t.pos.offset := by
  induction h with
  | done => nofun
  | cons ht hoffset hj hties _ _ ih =>
    refine List.forall_mem_cons.mpr ⟨⟨_, ht, _, hties, hj, hoffset⟩, fun s hs => ?_⟩
    obtain ⟨u, hu, k, hties', hk, hoffset'⟩ := ih s hs
    exact ⟨u, hu, k, hties', by omega, by omega⟩

/-- Segments come in order, as far as 32 bits can tell. -/
theorem Tied.ordered {ts : List Token} {start i : Nat} {segments : List Segment}
    (h : Tied source printed renames ts start i segments) (hsource : Position.Covers source)
    (hprinted : Place.Covers printed) : segments.Pairwise Segment.Before := by
  induction h with
  | done => exact .nil
  | cons _ _ _ hties hseam hrest ih =>
    refine List.pairwise_cons.mpr ⟨fun s hs => ?_, ih⟩
    obtain ⟨u, -, k, hties', hk, hoffset⟩ := hrest.ties s hs
    exact ⟨hties.before hties' hk hprinted, hties.origin_before hties' hoffset hseam hsource⟩

/-- The segments of pieces tie the tokens of the pieces, in their order. -/
theorem Aligned.tied {ts : List Token} {ps : List Piece} (h : Aligned ts ps)
    (hread : ∀ t ∈ ts, t.Readable) {start i : Nat} {segments : List Segment}
    (htiling : Tiling source start ts)
    (hmarked : Marked (.ofStyle style renames) renames printed i ps segments) :
    Tied source printed renames ts start i segments := by
  induction h generalizing start i segments with
  | nil =>
    cases hmarked
    exact .done
  | @written t ts p ps hfits hstands _ _ ih =>
    obtain ⟨ht, hread'⟩ := List.forall_mem_cons.mp hread
    cases htiling with
    | token htiles hrest =>
    have hstart : start ≤ t.pos.offset + t.text.length := Nat.le_add_right_of_le htiles.ordered
    cases hmarked with
    | silent htie hle hmarked =>
      exact (ih hread' hrest hmarked).weaken (List.subset_cons_self ..) hstart hle
    | @tied _ i _ _ s pos oldName segments htie htext hle hne hprinted hseam hmarked =>
      have hties := ties_of_fits ht hfits hstands htiles htie htext hne hprinted hseam
      have hlen : 0 < t.text.length := ht.length_pos
      have hlen' : 0 < s.length := by
        rw [← String.length_toList]
        exact List.length_pos_iff.mpr fun hnil => hne (String.toList_injective hnil)
      exact .cons (List.mem_cons_self ..) htiles.ordered hle hties htiles.seam
        ((ih hread' hrest hmarked).weaken (List.subset_cons_self ..) (Nat.add_le_add_left hlen _)
          (Nat.add_le_add_left hlen' _))
  | layout hp _ ih =>
    cases hmarked with
    | silent _ hle hmarked => exact (ih hread htiling hmarked).weaken (fun _ h => h) (Nat.le_refl _) hle
    | tied _ htext => rw [text_layout hp] at htext; cases htext
  | inserted _ ih =>
    cases hmarked with
    | silent _ hle hmarked => exact (ih hread htiling hmarked).weaken (fun _ h => h) (Nat.le_refl _) hle
    | tied htie => cases htie
  | trailing _ _ _ ih =>
    cases htiling with
    | token htiles hrest =>
    exact (ih (List.forall_mem_cons.mp hread).2 hrest hmarked).weaken (List.subset_cons_self ..)
      (Nat.le_add_right_of_le htiles.ordered) (Nat.le_refl _)

end

/-- The pieces of a program leave its segments in its text, and the text does not end in the middle
of a line end. -/
theorem Program.print_marked {source : String} {name : Option String} {program : Program}
    (h : parse source name = .ok program) {rules : List Rule}
    (hindent : ∀ indent, .indent indent ∈ rules → ∀ c ∈ indent.toList, c = ' ') :
    (program.print rules).text.toList.getLast? ≠ some '\r' ∧
      Marked (.ofStyle (.ofRules rules) (program.renames (.ofRules rules)))
        (program.renames (.ofRules rules)) (program.print rules).text.toList 0 program.pieces
        (program.print rules).segments := by
  have hlegible := (legible_of_parse h
    (w := ⟨Identifier.name, (Style.ofRules rules).dropSemicolons⟩) fun _ => rfl).1
  have hlast : ∀ indent ∈ (Style.ofRules rules).indent, indent.toList.getLast? ≠ some '\r' := by
    intro indent hmem hlast
    have hreturn := hindent indent (Style.mem_of_indent hmem) _ (List.mem_of_getLast? hlast)
    exact absurd hreturn (by decide)
  have htexts : ∀ p ∈ program.pieces, ∀ s,
      p.text (.ofStyle (.ofRules rules) (program.renames (.ofRules rules))) = some s →
      s ≠ "" ∧ s.toList.getLast? ≠ some '\r' := by
    intro p hp s hs
    obtain ⟨t, ht, rfl⟩ := readable_text hlegible p hp s hs
    refine ⟨fun hempty => ?_, ht.alone.not_return⟩
    have hpos := ht.length_pos
    rw [hempty] at hpos
    exact absurd hpos (by decide)
  have htext : (program.print rules).text.toList = ({} : Page).allMarks (.ofRules rules)
      (program.renames (.ofRules rules)) program.pieces :=
    Page.text_printed ..
  obtain ⟨htracked, segments, hfold, hmarked⟩ := Page.marked hlast htexts Page.tracked_empty htext
  have hsegments : (program.print rules).segments = segments := by
    rw [Program.print, Page.printed, Page.ofPieces, hfold]
    simp
  refine ⟨?_, hsegments ▸ hmarked⟩
  rw [Program.print, Page.printed, String.toList_ofList, List.getLast?_reverse]
  exact htracked.last

/-- The segments of a printed program tie tokens of its source. -/
theorem Program.print_tied {source : String} {name : Option String} {program : Program}
    (h : parse source name = .ok program) {rules : List Rule}
    (hindent : ∀ indent, .indent indent ∈ rules → ∀ c ∈ indent.toList, c = ' ') :
    ∃ ts, tokensOf source = .ok ts ∧ Tied source.toList (program.print rules).text.toList
      (program.renames (.ofRules rules)) ts 0 0 (program.print rules).segments := by
  obtain ⟨c, c', hnext, hprogram⟩ := parse_eq_ok.mp h
  obtain ⟨ts, hreads, haligned⟩ := (ProgramEcho.program hprogram).traces
  exact ⟨ts, tokensOf_eq hnext hprogram hreads,
    haligned.tied hreads.readable ((hreads.lexes hnext).tiling_behind (.start _)).1
      (print_marked h hindent).2⟩

/-- Segments are sound and come in order: each one ties a token of the source, and both the places
in the printed text and those in the source grow from one to the next, where 32 bits suffice to
count the lines and columns of both texts. -/
theorem segments_tied {source : String} {name : Option String} {program : Program}
    (h : parse source name = .ok program) {rules : List Rule}
    (hindent : ∀ indent, .indent indent ∈ rules → ∀ c ∈ indent.toList, c = ' ') :
    ∃ ts, tokensOf source = .ok ts ∧
      (∀ s ∈ (program.print rules).segments, ∃ t ∈ ts, ∃ i,
        s.Ties source.toList (program.print rules).text.toList
          (program.renames (.ofRules rules)) t i) ∧
      (Position.Covers source.toList → Place.Covers (program.print rules).text.toList →
        (program.print rules).segments.Pairwise Segment.Before) := by
  obtain ⟨ts, htokens, htied⟩ := program.print_tied h hindent
  refine ⟨ts, htokens, fun s hs => ?_, htied.ordered⟩
  obtain ⟨t, ht, i, hties, -, -⟩ := htied.ties s hs
  exact ⟨t, ht, i, hties⟩

theorem segments_tied_function : ∃ program,
    parse "function f(aa) \x7b\r\n return aa \x7d" none = .ok program ∧
    (program.print [.obfuscate [], .indent "  "]).segments.length = 5 ∧
    (∀ s ∈ (program.print [.obfuscate [], .indent "  "]).segments, ∃ t i,
      s.Ties "function f(aa) \x7b\r\n return aa \x7d".toList
        (program.print [.obfuscate [], .indent "  "]).text.toList
        (program.renames (.ofRules [.obfuscate [], .indent "  "])) t i) ∧
    (program.print [.obfuscate [], .indent "  "]).segments.Pairwise Segment.Before := by
  have hparse : ((parse "function f(aa) \x7b\r\n return aa \x7d" none).toOption.any fun program =>
      let printed := program.print [.obfuscate [], .indent "  "]
      printed.segments.length == 5 && decide (printed.text.toList.length < 100)) = true := by
    decide +kernel
  obtain ⟨program, h, hprinted⟩ := exists_ok_of_any hparse
  obtain ⟨hlength, hshort⟩ := Bool.and_eq_true_iff.mp hprinted
  have hindent : ∀ indent, Rule.indent indent ∈ [.obfuscate [], .indent "  "] →
      ∀ c ∈ indent.toList, c = ' ' := by
    intro indent hmem
    obtain rfl : indent = "  " := by simpa using hmem
    simp
  obtain ⟨ts, -, hties, hordered⟩ := segments_tied h hindent
  refine ⟨program, h, beq_iff_eq.mp hlength, fun s hs => ?_, hordered ?_ ?_⟩
  · obtain ⟨t, -, i, htied⟩ := hties s hs
    exact ⟨t, i, htied⟩
  · exact Position.covers_of_length (by decide)
  · exact Place.covers_of_length (Nat.lt_trans (of_decide_eq_true hshort) (by decide))

end EcmaPress

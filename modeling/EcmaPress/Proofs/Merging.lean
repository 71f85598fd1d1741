import EcmaPress.Mapping.Mappings
import EcmaPress.Proofs.Positions

/-!
# Entries that may be left out

A reader who looks up a place takes the last entry before it on its line, and goes on from the
origin of this entry by as many columns as the place stands behind it. Merged entries answer every
such question as all of them do. The step of the argument is one entry: it is left out only if the
last one kept leads to its origin, and it does so for everything that goes on with the entry left
out.
-/

namespace EcmaPress
namespace Entry

/-! ### Looking up places -/

/-- Whether an entry stands on the line of a place, and not behind it. -/
def reaches (e : Entry) (p : Spot) : Bool :=
  e.segment.generated.spot.line == p.line && decide (e.segment.generated.spot.column ≤ p.column)

/-- The entry that a reader finds for a place: the last one that reaches it. -/
def lookup (entries : List Entry) (p : Spot) : Option Entry :=
  (entries.filter (·.reaches p)).getLast?

/-- The place that an entry leads to from a place that it reaches. -/
def originOf (e : Entry) (p : Spot) : Spot :=
  ⟨e.segment.origin.spot.line,
    e.segment.origin.spot.column + (p.column - e.segment.generated.spot.column)⟩

/-- What a reader learns about a place: the source, the place in it, and the name. -/
def trace (entries : List Entry) (p : Spot) : Option (Nat × Spot × Option String) :=
  (lookup entries p).map fun e => (e.source, e.originOf p, e.segment.name)

theorem reaches_iff {e : Entry} {p : Spot} :
    e.reaches p = true ↔
      e.segment.generated.spot.line = p.line ∧ e.segment.generated.spot.column ≤ p.column := by
  simp [reaches]

theorem reaches_of_lookup {entries : List Entry} {p : Spot} {e : Entry}
    (h : lookup entries p = some e) : e.reaches p = true :=
  (List.mem_filter.mp (List.mem_of_getLast? h)).2

/-- Where nothing is found among entries, nothing is found among some of them. -/
theorem lookup_none {kept entries : List Entry} (h : kept ⊆ entries) {p : Spot}
    (hnone : lookup entries p = none) : lookup kept p = none := by
  have hall := List.filter_eq_nil_iff.mp (List.getLast?_eq_none_iff.mp hnone)
  exact List.getLast?_eq_none_iff.mpr (List.filter_eq_nil_iff.mpr fun e he => hall e (h he))

/-- The entries behind the first one are asked before it. -/
theorem lookup_cons (e : Entry) (entries : List Entry) (p : Spot) :
    lookup (e :: entries) p =
      (lookup entries p).or (if e.reaches p then some e else none) := by
  unfold lookup
  cases h : e.reaches p with
  | false => simp [h]
  | true => simp [h, List.getLast?_cons, Option.or_some]

/-- At the place of an entry a reader finds this entry. -/
theorem lookup_self {entries : List Entry}
    (h : entries.Pairwise fun a b => a.segment.generated.Before b.segment.generated) {e : Entry}
    (he : e ∈ entries) : lookup entries e.segment.generated.spot = some e := by
  induction entries with
  | nil => cases he
  | cons first rest ih =>
    obtain ⟨hfirst, hrest⟩ := List.pairwise_cons.mp h
    rw [lookup_cons]
    rcases List.mem_cons.mp he with rfl | he
    · -- None of the entries behind it stands at its place or before it.
      have hnone : lookup rest e.segment.generated.spot = none := by
        rw [lookup, List.filter_eq_nil_iff.mpr, List.getLast?_nil]
        intro next hnext hreaches
        have hbefore := Place.before_spot.mpr (hfirst next hnext)
        have hat := reaches_iff.mp hreaches
        unfold Spot.Before at hbefore
        omega
      rw [hnone, Option.none_or, if_pos (reaches_iff.mpr ⟨rfl, Nat.le_refl _⟩)]
    · rw [ih hrest he, Option.some_or]

/-! ### Merging -/

/-- What it takes for an entry to go on with another one. -/
theorem continues_iff {last next : Entry} :
    last.continues next = true ↔ last.source = next.source ∧
      last.segment.generated.line = next.segment.generated.line ∧
      last.segment.origin.line = next.segment.origin.line ∧
      last.segment.name = none ∧ next.segment.name = none ∧
      (last.segment.generated.spot.column : Int) - last.segment.origin.spot.column =
        next.segment.generated.spot.column - next.segment.origin.spot.column := by
  simp [continues, and_assoc, Place.spot]

theorem continues_trans {a b c : Entry} (h : a.continues b = true) (h' : b.continues c = true) :
    a.continues c = true := by
  obtain ⟨hsource, hline, horigin, hname, -, hcolumns⟩ := continues_iff.mp h
  obtain ⟨hsource', hline', horigin', -, hname', hcolumns'⟩ := continues_iff.mp h'
  exact continues_iff.mpr ⟨hsource.trans hsource', hline.trans hline', horigin.trans horigin',
    hname, hname', hcolumns.trans hcolumns'⟩

/-- One entry stands for another one: it is the same, or the other one only goes on with it. -/
def StandsFor (k e : Entry) : Prop :=
  k = e ∨ k.continues e = true

theorem StandsFor.continues {k e next : Entry} (h : k.StandsFor e)
    (hnext : e.continues next = true) : k.StandsFor next := by
  rcases h with rfl | h
  · exact .inr hnext
  · exact .inr (continues_trans h hnext)

/-- An entry goes on with a place that one of both entries reaches just as the other one does. -/
theorem StandsFor.originOf_eq {k e : Entry} (h : k.StandsFor e) {p : Spot}
    (hk : k.reaches p = true) (he : e.reaches p = true) :
    k.source = e.source ∧ k.originOf p = e.originOf p ∧ k.segment.name = e.segment.name := by
  rcases h with rfl | h
  · exact ⟨rfl, rfl, rfl⟩
  · obtain ⟨hsource, -, horigin, hname, hname', hcolumns⟩ := continues_iff.mp h
    have hk' := (reaches_iff.mp hk).2
    have he' := (reaches_iff.mp he).2
    refine ⟨hsource, ?_, hname.trans hname'.symm⟩
    have hline : k.segment.origin.spot.line = e.segment.origin.spot.line :=
      congrArg UInt32.toNat horigin
    rw [originOf, originOf, hline, Spot.mk.injEq]
    exact ⟨rfl, by omega⟩

theorem subset_mergeAfter (last : Entry) (rest : List Entry) : mergeAfter last rest ⊆ rest := by
  fun_induction mergeAfter last rest with
  | case1 => exact List.Subset.refl _
  | case2 _ _ _ _ ih => exact List.subset_cons_of_subset _ ih
  | case3 _ _ _ _ ih => exact List.cons_subset_cons _ ih

theorem subset_merge (entries : List Entry) : merge entries ⊆ entries := by
  cases entries with
  | nil => exact List.Subset.refl _
  | cons first rest => exact List.cons_subset_cons _ (subset_mergeAfter first rest)

/-- For what is found among all entries, an entry that stands for it is found among those kept. -/
theorem lookup_mergeAfter {last : Entry} {rest : List Entry}
    (h : (last :: rest).Pairwise fun a b => a.segment.generated.Before b.segment.generated)
    {p : Spot} {e : Entry} (he : lookup (last :: rest) p = some e) :
    ∃ k, lookup (last :: mergeAfter last rest) p = some k ∧ k.StandsFor e := by
  induction rest generalizing last e with
  | nil => exact ⟨e, he, .inl rfl⟩
  | cons next rest ih =>
    obtain ⟨hlast, hrest⟩ := List.pairwise_cons.mp h
    rw [mergeAfter]
    split
    · next hcontinues =>
      have hshorter := List.pairwise_cons.mpr
        ⟨fun e he => hlast e (List.mem_cons_of_mem _ he), (List.pairwise_cons.mp hrest).2⟩
      rw [lookup_cons, lookup_cons next] at he
      cases hfound : lookup rest p with
      | some e' => exact ih hshorter (by rw [lookup_cons, hfound]; simpa [hfound] using he)
      | none =>
        cases hnext : next.reaches p with
        | false => exact ih hshorter (by rw [lookup_cons, hfound]; simpa [hfound, hnext] using he)
        | true =>
          -- The entry left out is found: then the last one kept reaches the place as well.
          obtain rfl : next = e := by simpa [hfound, hnext] using he
          have hreaches : last.reaches p = true := by
            have hbefore := Place.before_spot.mpr (hlast next List.mem_cons_self)
            have hline : last.segment.generated.spot.line = next.segment.generated.spot.line :=
              congrArg UInt32.toNat (continues_iff.mp hcontinues).2.1
            have hat := reaches_iff.mp hnext
            unfold Spot.Before at hbefore
            exact reaches_iff.mpr ⟨by omega, by omega⟩
          obtain ⟨k, hk, hstands⟩ := ih hshorter (e := last) (by simp [lookup_cons, hfound, hreaches])
          exact ⟨k, hk, hstands.continues hcontinues⟩
    · rw [lookup_cons] at he ⊢
      cases hfound : lookup (next :: rest) p with
      | some e' =>
        obtain rfl : e' = e := by simpa [hfound] using he
        obtain ⟨k, hk, hstands⟩ := ih hrest hfound
        exact ⟨k, by rw [hk, Option.some_or], hstands⟩
      | none =>
        have hnone := lookup_none (List.cons_subset_cons next (subset_mergeAfter next rest)) hfound
        rw [hfound] at he
        exact ⟨e, by rw [hnone, he], .inl rfl⟩

theorem lookup_merge {entries : List Entry}
    (h : entries.Pairwise fun a b => a.segment.generated.Before b.segment.generated) {p : Spot}
    {e : Entry} (he : lookup entries p = some e) :
    ∃ k, lookup (merge entries) p = some k ∧ k.StandsFor e := by
  cases entries with
  | nil => cases he
  | cons first rest => exact lookup_mergeAfter h he

/-- Merging loses nothing. At the place of every entry a reader finds an entry that leads to the
same origin, which is the entry itself if it has a name, and has no name otherwise. So wherever a
reader asks, merged entries answer as all of them do. -/
theorem merge_traces {entries : List Entry}
    (h : entries.Pairwise fun a b => a.segment.generated.Before b.segment.generated) :
    (∀ e ∈ entries, ∃ k, lookup (merge entries) e.segment.generated.spot = some k ∧
      k.segment.generated.line = e.segment.generated.line ∧
      k.segment.generated.column ≤ e.segment.generated.column ∧
      k.source = e.source ∧ k.segment.origin.line = e.segment.origin.line ∧
      k.segment.origin.column.toNat +
          (e.segment.generated.column.toNat - k.segment.generated.column.toNat) =
        e.segment.origin.column.toNat ∧
      (e.segment.name ≠ none → k = e) ∧ (e.segment.name = none → k.segment.name = none)) ∧
    ∀ p, trace (merge entries) p = trace entries p := by
  constructor
  · intro e he
    obtain ⟨k, hk, hstands⟩ := lookup_merge h (lookup_self h he)
    have hreaches := reaches_of_lookup hk
    obtain ⟨hsource, horigin, hname⟩ :=
      hstands.originOf_eq hreaches (reaches_iff.mpr ⟨rfl, Nat.le_refl _⟩)
    obtain ⟨hline, hcolumn⟩ := Spot.mk.inj horigin
    obtain ⟨hsame, hbefore⟩ := reaches_iff.mp hreaches
    rw [Nat.sub_self, Nat.add_zero] at hcolumn
    refine ⟨k, hk, UInt32.toNat_inj.mp hsame, UInt32.le_iff_toNat_le.mpr hbefore, hsource,
      UInt32.toNat_inj.mp hline, hcolumn, fun hnamed => ?_, hname.trans⟩
    exact hstands.resolve_right fun hcontinues => hnamed (continues_iff.mp hcontinues).2.2.2.2.1
  · intro p
    unfold trace
    cases he : lookup entries p with
    | none => rw [lookup_none (subset_merge entries) he]
    | some e =>
      obtain ⟨k, hk, hstands⟩ := lookup_merge h he
      obtain ⟨hsource, horigin, hname⟩ :=
        hstands.originOf_eq (reaches_of_lookup hk) (reaches_of_lookup he)
      rw [hk, Option.map_some, Option.map_some, hsource, horigin, hname]

/-- Of four entries on a line the second one goes on with the first one; the third one has a name,
and the last one comes from another source. -/
theorem merge_traces_four :
    let entries : List Entry :=
      [⟨0, ⟨0, 0⟩, ⟨2, 4⟩, none⟩, ⟨0, ⟨0, 3⟩, ⟨2, 7⟩, none⟩, ⟨0, ⟨0, 5⟩, ⟨2, 9⟩, some "total"⟩,
        ⟨1, ⟨0, 8⟩, ⟨2, 12⟩, none⟩]
    (entries.Pairwise fun a b => a.segment.generated.Before b.segment.generated) ∧
      (merge entries).length = 3 ∧
      trace (merge entries) ⟨0, 4⟩ = some (0, ⟨2, 8⟩, none) ∧
      ∀ p, trace (merge entries) p = trace entries p := by
  intro entries
  have hordered : entries.Pairwise fun a b => a.segment.generated.Before b.segment.generated := by
    simp [entries, Place.Before]
  exact ⟨hordered, by decide, by decide, (merge_traces hordered).2⟩

end Entry
end EcmaPress

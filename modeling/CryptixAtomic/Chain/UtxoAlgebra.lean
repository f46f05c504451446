import CryptixAtomic.Chain.Utxo

/-!
# Composing differences

Chain walks keep one difference from the virtual UTXO set and compose stored ones to it,
forwards or reversed. `From` says that a difference is the one between two sets: it
removes and adds exactly where they differ. `withDiffInPlace_from` is the composition law. It
rests on what the ids promise: one outpoint has one entry for each score.
-/
namespace CryptixAtomic

open Foundation List Option FMap Finmap

/-- Outpoints compare field by field; the order stands in for that of a hash map. -/
instance : LinearOrder TransactionOutpoint :=
  LinearOrder.lift' (fun o => toLex (o.transactionId, o.index)) (by
    rintro ⟨t, i⟩ ⟨t', i'⟩ h
    simpa using h)

/-- The first common outpoint whose two entries satisfy the rule. -/
def intersectsWithRule (this other : UtxoCollection)
    (rule : TransactionOutpoint → UtxoEntry → UtxoEntry → Bool) : Option TransactionOutpoint :=
  (this.iter.find? fun p => (other.lookup p.1).any (rule p.1 p.2)).map Prod.fst

/-- The entries of `this` that `other` has with the same score go to the first collection,
all others to the second. -/
def intersectionWithRemainderHavingDaaScore (this other result remainder : UtxoCollection) :
    UtxoCollection × UtxoCollection :=
  (result.insertAll (this.iter.filter fun p => containsWithDaaScore other p.1 p.2.blockDaaScore),
    remainder.insertAll
      (this.iter.filter fun p => !containsWithDaaScore other p.1 p.2.blockDaaScore))

/-- The entries of `this` that `other` has not with the same score join the result. -/
def subtractionHavingDaaScore (this other result : UtxoCollection) : UtxoCollection :=
  result.insertAll (this.iter.filter fun p => !containsWithDaaScore other p.1 p.2.blockDaaScore)

def intersects (this other : UtxoCollection) : Bool := this.iter.any fun p => p.1 ∈ other

namespace UtxoDiff

def reversed (d : UtxoDiff) : UtxoDiff := ⟨d.remove, d.add⟩

variable (d other : UtxoDiff)

def withDiffInPlace : Except UtxoAlgebraError UtxoDiff :=
  match intersectsWithRule other.remove d.remove fun o entryToAdd _ =>
      !containsWithDaaScore d.add o entryToAdd.blockDaaScore with
  | some o => .error (.duplicateRemovePoint o)
  | none =>
    match intersectsWithRule other.add d.add fun o _ existing =>
        !containsWithDaaScore other.remove o existing.blockDaaScore with
    | some o => .error (.duplicateAddPoint o)
    | none =>
      let (common, remove) := intersectionWithRemainderHavingDaaScore other.remove d.add ∅ d.remove
      let add := d.add.without common.keys
      let (common, add) := intersectionWithRemainderHavingDaaScore other.add remove ∅ add
      .ok ⟨add, remove.without common.keys⟩

def withDiff : Except UtxoAlgebraError UtxoDiff := d.withDiffInPlace other

/-- The difference that leads from the set of one difference to that of another over the
same base. -/
def diffFrom : Except UtxoAlgebraError UtxoDiff :=
  match intersectsWithRule d.remove other.add fun o thisEntry otherEntry =>
      !(otherEntry.blockDaaScore ≠ thisEntry.blockDaaScore &&
        (containsWithDaaScore d.add o otherEntry.blockDaaScore ||
          containsWithDaaScore other.remove o thisEntry.blockDaaScore)) with
  | some o => .error (.diffIntersectionPoint o "both in self.add and in other.remove")
  | none =>
    match intersectsWithRule d.add other.remove fun o thisEntry otherEntry =>
        !(otherEntry.blockDaaScore ≠ thisEntry.blockDaaScore &&
          (containsWithDaaScore d.remove o otherEntry.blockDaaScore ||
            containsWithDaaScore other.add o thisEntry.blockDaaScore)) with
    | some o => .error (.diffIntersectionPoint o "both in self.remove and in other.add")
    | none =>
      match intersectsWithRule d.remove other.remove fun _ thisEntry otherEntry =>
          otherEntry.blockDaaScore ≠ thisEntry.blockDaaScore with
      | some o => .error (.diffIntersectionPoint o
          "both in self.remove and other.remove with different DAA scores, with no corresponding entry in self.add")
      | none =>
        let remove := subtractionHavingDaaScore d.add other.add ∅
        let inBothToAdd := FMap.insertAll (∅ : UtxoCollection)
          (d.add.iter.filter fun p => containsWithDaaScore other.add p.1 p.2.blockDaaScore)
        if intersects inBothToAdd d.remove ≠ intersects inBothToAdd other.remove then
          .error (.general
            "diff_from: outpoint both in self.add, other.add, and only one of self.remove and other.remove")
        else
          let remove := subtractionHavingDaaScore other.remove d.remove remove
          let add := subtractionHavingDaaScore d.remove other.remove ∅
          let add := subtractionHavingDaaScore other.add d.add add
          .ok ⟨add, remove⟩

/-- The difference between two sets. -/
structure From (d : UtxoDiff) (base view : UtxoView) : Prop where
  add : ∀ o, d.add.lookup o = if base o = view o then none else view o
  remove : ∀ o, d.remove.lookup o = if base o = view o then none else base o

section From

variable {d d' : UtxoDiff} {base view view' : UtxoView}

theorem From.compose (h : d.From base view) : d.compose base = view := by
  funext o
  have hadd := h.add o
  have hremove := h.remove o
  unfold UtxoDiff.compose
  by_cases heq : base o = view o
  · rw [if_pos heq] at hadd hremove
    simp [hadd, lookup_eq_none.mp hremove, heq]
  · rw [if_neg heq] at hadd hremove
    cases hview : view o with
    | some => simp [hadd, hview]
    | none =>
      cases hbase : base o with
      | none => exact absurd (hbase.trans hview.symm) heq
      | some =>
        have hmem : o ∈ d.remove := mem_of_lookup_eq_some (hremove.trans hbase)
        simp [hadd, hview, hmem]

theorem From.reversed (h : d.From base view) : d.reversed.From view base := by
  constructor
  · intro o
    exact (h.remove o).trans (if_congr eq_comm rfl rfl)
  · intro o
    exact (h.add o).trans (if_congr eq_comm rfl rfl)

/-- A difference is the one to the set it shows when it removes what is there, and adds what
is not, or is removed with another score. -/
theorem from_compose (hremoved : ∀ o e, d.remove.lookup o = some e → base o = some e)
    (hadded : ∀ o e, d.add.lookup o = some e → base o = none ∨
      ∃ r, d.remove.lookup o = some r ∧ r.blockDaaScore ≠ e.blockDaaScore) :
    d.From base (d.compose base) := by
  have hcell : ∀ o, d.add.lookup o = (if base o = d.compose base o then none else
        d.compose base o) ∧
      d.remove.lookup o = if base o = d.compose base o then none else base o := by
    intro o
    cases hadd : d.add.lookup o with
    | some e =>
      have hmoved : base o ≠ some e := by
        intro hs
        rcases hadded o e hadd with hnone | ⟨r, hr, hscore⟩
        · rw [hs] at hnone
          cases hnone
        · have hr' := hremoved o r hr
          rw [hs] at hr'
          exact hscore (by rw [some.inj hr'])
      rw [compose_of_added hadd, if_neg hmoved, if_neg hmoved]
      refine ⟨rfl, ?_⟩
      rcases hadded o e hadd with hnone | ⟨r, hr, -⟩
      · cases hremove : d.remove.lookup o with
        | none => exact hnone.symm
        | some r =>
          have hr := hremoved o r hremove
          rw [hnone] at hr
          cases hr
      · rw [hr, hremoved o r hr]
    | none =>
      rw [compose_of_not_added hadd]
      cases hremove : d.remove.lookup o with
      | none => simp [lookup_eq_none.mp hremove]
      | some r => simp [mem_of_lookup_eq_some hremove, hremoved o r hremove]
  exact ⟨fun o => (hcell o).1, fun o => (hcell o).2⟩

theorem Over.from_shows {utxo : UtxoCollection} (h : d.Over base) (hshows : d.Shows base utxo) :
    d.From base utxo.lookup := by
  have hview : utxo.lookup = d.compose base := funext hshows
  rw [hview]
  exact from_compose h.removed fun o e he => .inl (h.added o e he)

theorem intersectsWithRule_eq_none {this other : UtxoCollection}
    {rule : TransactionOutpoint → UtxoEntry → UtxoEntry → Bool}
    (h : ∀ o e e', this.lookup o = some e → other.lookup o = some e' → rule o e e' = false) :
    intersectsWithRule this other rule = none := by
  unfold intersectsWithRule
  rw [map_eq_none_iff, find?_eq_none]
  rintro ⟨o, e⟩ hmem hany
  cases hother : other.lookup o with
  | none => simp [hother] at hany
  | some e' =>
    rw [hother, any_some, h o e e' (mem_iter.mp hmem) hother] at hany
    cases hany

/-- Entries of three sets at one outpoint with one score are equal. -/
def ToldApart (v w x : Option UtxoEntry) : Prop :=
  ∀ e e', (v = some e ∨ w = some e ∨ x = some e) → (v = some e' ∨ w = some e' ∨ x = some e') →
    e.blockDaaScore = e'.blockDaaScore → e = e'

theorem ToldApart.score_iff {v w x : Option UtxoEntry} (h : ToldApart v w x) (e e' : UtxoEntry)
    (he : v = some e ∨ w = some e ∨ x = some e) (he' : v = some e' ∨ w = some e' ∨ x = some e') :
    e.blockDaaScore = e'.blockDaaScore ↔ e = e' :=
  ⟨h e e' he he', fun heq => by rw [heq]⟩

variable (add remove add' remove' : Option UtxoEntry)

/-- What is left of an added and a removed entry at one outpoint when another pair is
composed to them. -/
def composedCell : Option UtxoEntry × Option UtxoEntry :=
  let sameScore (c : Option UtxoEntry) (e : UtxoEntry) : Bool :=
    c.any fun v => v.blockDaaScore = e.blockDaaScore
  let mid := (remove'.filter fun e => !sameScore add e).or remove
  let kept := if (remove'.filter (sameScore add)).isSome then none else add
  ((add'.filter fun e => !sameScore mid e).or kept,
    if (add'.filter (sameScore mid)).isSome then none else mid)

theorem composedCell_eq {v w x : Option UtxoEntry} (hentries : ToldApart v w x) :
    composedCell (if v = w then none else w) (if v = w then none else v)
        (if w = x then none else x) (if w = x then none else w) =
      (if v = x then none else x, if v = x then none else v) := by
  have hscores := hentries.score_iff
  unfold composedCell
  -- each of the three sets has the outpoint or not
  rcases v with _ | v <;> rcases w with _ | w <;> rcases x with _ | x <;>
    simp only [Option.some.injEq, reduceCtorEq, false_or, or_false] at hscores ⊢ <;> grind

/-- The difference from one set to a second, then the one from there to a third, is the
difference from the first to the third. -/
theorem withDiffInPlace_from (h : d.From base view) (h' : d'.From view view')
    (hentries : ∀ o, ToldApart (base o) (view o) (view' o)) :
    ∃ r, d.withDiffInPlace d' = .ok r ∧ r.From base view' := by
  have hremoves : intersectsWithRule d'.remove d.remove (fun o entryToAdd _ =>
      !containsWithDaaScore d.add o entryToAdd.blockDaaScore) = none := by
    apply intersectsWithRule_eq_none
    intro o e e' he he'
    have hadd := h.add o
    rw [h'.remove] at he
    rw [h.remove] at he'
    split_ifs at he he' hadd with hmoved hmoved'
    simp [containsWithDaaScore, hadd, he]
  have hadds : intersectsWithRule d'.add d.add (fun o _ existing =>
      !containsWithDaaScore d'.remove o existing.blockDaaScore) = none := by
    apply intersectsWithRule_eq_none
    intro o e e' he he'
    have hremove := h'.remove o
    rw [h'.add] at he
    rw [h.add] at he'
    split_ifs at he he' hremove with hmoved hmoved'
    simp [containsWithDaaScore, hremove, he']
  refine ⟨_, by simp only [withDiffInPlace, hremoves, hadds]; rfl, ?_⟩
  have hcell : ∀ o, composedCell (d.add.lookup o) (d.remove.lookup o) (d'.add.lookup o)
      (d'.remove.lookup o) =
        (if base o = view' o then none else view' o, if base o = view' o then none else base o) := by
    intro o
    rw [h.add, h.remove, h'.add, h'.remove]
    exact composedCell_eq (hentries o)
  constructor
  · intro o
    refine Eq.trans ?_ (congrArg Prod.fst (hcell o))
    simp only [intersectionWithRemainderHavingDaaScore, FMap.lookup_insertAll_filter_iter,
      FMap.lookup_without, Finmap.mem_keys, ← Finmap.lookup_isSome]
    simp [composedCell, containsWithDaaScore, FMap.lookup_insertAll_filter_iter]
  · intro o
    refine Eq.trans ?_ (congrArg Prod.snd (hcell o))
    simp only [intersectionWithRemainderHavingDaaScore, FMap.lookup_insertAll_filter_iter,
      FMap.lookup_without, Finmap.mem_keys, ← Finmap.lookup_isSome]
    simp [composedCell, containsWithDaaScore, FMap.lookup_insertAll_filter_iter]

/-- What two differences over one base leave at one outpoint of the difference between
their sets. -/
def differenceCell : Option UtxoEntry × Option UtxoEntry :=
  let sameScore (c : Option UtxoEntry) (e : UtxoEntry) : Bool :=
    c.any fun v => v.blockDaaScore = e.blockDaaScore
  ((add'.filter fun e => !sameScore add e).or (remove.filter fun e => !sameScore remove' e),
    (remove'.filter fun e => !sameScore remove e).or (add.filter fun e => !sameScore add' e))

theorem differenceCell_eq {v w x : Option UtxoEntry} (hentries : ToldApart v w x) :
    differenceCell (if v = w then none else w) (if v = w then none else v)
        (if v = x then none else x) (if v = x then none else v) =
      (if w = x then none else x, if w = x then none else w) := by
  have hscores := hentries.score_iff
  unfold differenceCell
  rcases v with _ | v <;> rcases w with _ | w <;> rcases x with _ | x <;>
    simp only [Option.some.injEq, reduceCtorEq, false_or, or_false] at hscores ⊢ <;> grind

theorem intersects_eq_true {this other : UtxoCollection} :
    intersects this other = true ↔ ∃ o, o ∈ this ∧ o ∈ other := by
  unfold intersects
  rw [List.any_eq_true]
  constructor
  · rintro ⟨⟨o, e⟩, hmem, ho⟩
    exact ⟨o, mem_of_lookup_eq_some (mem_iter.mp hmem), by simpa using ho⟩
  · rintro ⟨o, hthis, hother⟩
    obtain ⟨e, he⟩ := mem_iff.mp hthis
    exact ⟨(o, e), mem_iter.mpr he, by simpa using hother⟩

theorem diffFrom_from (h : d.From base view) (h' : d'.From base view')
    (hentries : ∀ o, ToldApart (base o) (view o) (view' o)) :
    ∃ r, d.diffFrom d' = .ok r ∧ r.From view view' := by
  have hremoveAdd : intersectsWithRule d.remove d'.add (fun o thisEntry otherEntry =>
      !(otherEntry.blockDaaScore ≠ thisEntry.blockDaaScore &&
        (containsWithDaaScore d.add o otherEntry.blockDaaScore ||
          containsWithDaaScore d'.remove o thisEntry.blockDaaScore))) = none := by
    apply intersectsWithRule_eq_none
    intro o e e' he he'
    have hremove := h'.remove o
    rw [h.remove] at he
    rw [h'.add] at he'
    split_ifs at he he' hremove with hmoved hmoved'
    have hscores : e'.blockDaaScore ≠ e.blockDaaScore := by
      intro hscore
      rw [hentries o e' e (.inr (.inr he')) (.inl he) hscore, ← he] at he'
      exact hmoved' he'.symm
    simp [containsWithDaaScore, hremove, he, hscores]
  have haddRemove : intersectsWithRule d.add d'.remove (fun o thisEntry otherEntry =>
      !(otherEntry.blockDaaScore ≠ thisEntry.blockDaaScore &&
        (containsWithDaaScore d.remove o otherEntry.blockDaaScore ||
          containsWithDaaScore d'.add o thisEntry.blockDaaScore))) = none := by
    apply intersectsWithRule_eq_none
    intro o e e' he he'
    have hremove := h.remove o
    rw [h.add] at he
    rw [h'.remove] at he'
    split_ifs at he he' hremove with hmoved hmoved'
    have hscores : e'.blockDaaScore ≠ e.blockDaaScore := by
      intro hscore
      rw [hentries o e' e (.inl he') (.inr (.inl he)) hscore, ← he] at he'
      exact hmoved he'
    simp [containsWithDaaScore, hremove, he', hscores]
  have hremoves : intersectsWithRule d.remove d'.remove (fun _ thisEntry otherEntry =>
      otherEntry.blockDaaScore ≠ thisEntry.blockDaaScore) = none := by
    apply intersectsWithRule_eq_none
    intro o e e' he he'
    rw [h.remove] at he
    rw [h'.remove] at he'
    split_ifs at he he' with hmoved hmoved'
    obtain rfl := some.inj (he.symm.trans he')
    simp
  -- what is in both additions was in the base or not, whichever difference is asked
  have hboth : intersects (FMap.insertAll (∅ : UtxoCollection) (d.add.iter.filter fun p =>
        containsWithDaaScore d'.add p.1 p.2.blockDaaScore)) d.remove =
      intersects (FMap.insertAll (∅ : UtxoCollection) (d.add.iter.filter fun p =>
        containsWithDaaScore d'.add p.1 p.2.blockDaaScore)) d'.remove := by
    rw [Bool.eq_iff_iff, intersects_eq_true, intersects_eq_true]
    apply exists_congr
    intro o
    apply and_congr_right
    intro ho
    rw [← Finmap.lookup_isSome, FMap.lookup_insertAll_filter_iter, h.add] at ho
    rw [← Finmap.lookup_isSome, ← Finmap.lookup_isSome, h.remove, h'.remove]
    by_cases hmoved : base o = view o
    · simp [hmoved] at ho
    · by_cases hmoved' : base o = view' o
      · simp [containsWithDaaScore, h'.add, hmoved'] at ho
      · rw [if_neg hmoved, if_neg hmoved']
  refine ⟨_, by simp only [diffFrom, hremoveAdd, haddRemove, hremoves, hboth, ne_eq,
    not_true_eq_false, if_false]; rfl, ?_⟩
  have hcell : ∀ o, differenceCell (d.add.lookup o) (d.remove.lookup o) (d'.add.lookup o)
      (d'.remove.lookup o) =
        (if view o = view' o then none else view' o, if view o = view' o then none else view o) := by
    intro o
    rw [h.add, h.remove, h'.add, h'.remove]
    exact differenceCell_eq (hentries o)
  constructor
  · intro o
    refine Eq.trans ?_ (congrArg Prod.fst (hcell o))
    simp [subtractionHavingDaaScore, FMap.lookup_insertAll_filter_iter, differenceCell,
      containsWithDaaScore]
  · intro o
    refine Eq.trans ?_ (congrArg Prod.snd (hcell o))
    simp [subtractionHavingDaaScore, FMap.lookup_insertAll_filter_iter, differenceCell,
      containsWithDaaScore]

end From

/-- A difference that can be applied to a set: what it removes is there, and what it adds
is not, or is removed with another score. -/
structure Valid (d : UtxoDiff) (utxo : UtxoCollection) : Prop where
  removed : ∀ o e, d.remove.lookup o = some e → utxo.lookup o = some e
  added : ∀ o e, d.add.lookup o = some e → utxo.lookup o = none ∨
    ∃ r, d.remove.lookup o = some r ∧ r.blockDaaScore ≠ e.blockDaaScore

/-- The entries of some sets at one outpoint are told apart by their scores. -/
def ToldByScore (sets : List UtxoCollection) : Prop :=
  ∀ s ∈ sets, ∀ t ∈ sets, ∀ o e e', s.lookup o = some e → t.lookup o = some e' →
    e.blockDaaScore = e'.blockDaaScore → e = e'

section Laws

variable {d d' : UtxoDiff} {s : UtxoCollection}

theorem Valid.from_applyTo (h : d.Valid s) : d.From s.lookup (d.applyTo s).lookup := by
  have hview : (d.applyTo s).lookup = d.compose s.lookup := funext (d.lookup_applyTo s)
  rw [hview]
  exact from_compose h.removed h.added

theorem From.applyTo_eq {t : UtxoCollection} (h : d.From s.lookup t.lookup) : d.applyTo s = t := by
  apply ext_lookup
  intro o
  rw [d.lookup_applyTo s o, h.compose]

/-- A valid difference re-adds an outpoint with another score only. -/
theorem Valid.toldByScore (h : d.Valid s) : ToldByScore [s, d.applyTo s, s] := by
  have hcross : ∀ o e e', s.lookup o = some e → (d.applyTo s).lookup o = some e' →
      e.blockDaaScore = e'.blockDaaScore → e = e' := by
    intro o e e' he he' hscore
    rw [d.lookup_applyTo s o] at he'
    cases hadd : d.add.lookup o with
    | some a =>
      rw [compose_of_added hadd] at he'
      obtain rfl := some.inj he'
      rcases h.added o a hadd with hnone | ⟨r, hr, hne⟩
      · rw [he] at hnone
        cases hnone
      · have hr' := h.removed o r hr
        rw [he] at hr'
        obtain rfl := some.inj hr'
        exact absurd hscore hne
    | none =>
      rw [compose_of_not_added hadd] at he'
      split_ifs at he'
      exact some.inj (he.symm.trans he')
  intro a ha b hb o e e' he he' hscore
  simp only [mem_cons, not_mem_nil, or_false] at ha hb
  rcases ha with rfl | rfl | rfl <;> rcases hb with rfl | rfl | rfl
  all_goals first
    | exact some.inj (he.symm.trans he')
    | exact hcross o e e' he he' hscore
    | exact (hcross o e' e he' he hscore.symm).symm

theorem ToldByScore.entries {a b c : UtxoCollection} (h : ToldByScore [a, b, c]) :
    ∀ o e e', (a.lookup o = some e ∨ b.lookup o = some e ∨ c.lookup o = some e) →
      (a.lookup o = some e' ∨ b.lookup o = some e' ∨ c.lookup o = some e') →
      e.blockDaaScore = e'.blockDaaScore → e = e' := by
  have hmem : ∀ o e, (a.lookup o = some e ∨ b.lookup o = some e ∨ c.lookup o = some e) →
      ∃ s ∈ [a, b, c], s.lookup o = some e := by
    intro o e he
    simpa using he
  intro o e e' he he'
  obtain ⟨s, hs, hse⟩ := hmem o e he
  obtain ⟨t, ht, hte⟩ := hmem o e' he'
  exact h s hs t ht o e e' hse hte

/-- The laws of the algebra: composition acts as one difference after the other, the
difference between two differences leads from one to the other, and a difference
followed by its reverse does nothing. -/
theorem diff_algebra (h : d.Valid s) :
    (∀ d', d'.Valid (d.applyTo s) → ToldByScore [s, d.applyTo s, d'.applyTo (d.applyTo s)] →
      ∃ r, d.withDiff d' = .ok r ∧ r.applyTo s = d'.applyTo (d.applyTo s) ∧
        ∀ o, r.compose s.lookup o = (d'.applyTo (d.applyTo s)).lookup o) ∧
    (∀ d', d'.Valid s → ToldByScore [s, d.applyTo s, d'.applyTo s] →
      ∃ between r, d.diffFrom d' = .ok between ∧ d.withDiff between = .ok r ∧
        r.applyTo s = d'.applyTo s) ∧
    ∃ r, d.withDiff d.reversed = .ok r ∧ r.applyTo s = s := by
  have hd := h.from_applyTo
  refine ⟨?_, ?_, ?_⟩
  · intro d' h' htold
    obtain ⟨r, hr, hfrom⟩ := withDiffInPlace_from hd h'.from_applyTo htold.entries
    exact ⟨r, hr, hfrom.applyTo_eq, fun o => congrFun hfrom.compose o⟩
  · intro d' h' htold
    obtain ⟨between, hbetween, hfrom⟩ := diffFrom_from hd h'.from_applyTo htold.entries
    obtain ⟨r, hr, hfrom'⟩ := withDiffInPlace_from hd hfrom htold.entries
    exact ⟨between, r, hbetween, hr, hfrom'.applyTo_eq⟩
  · obtain ⟨r, hr, hfrom⟩ := withDiffInPlace_from hd hd.reversed h.toldByScore.entries
    exact ⟨r, hr, hfrom.applyTo_eq⟩

end Laws

section Samples

/-- An unspent output of the given amount at one fixed outpoint. -/
def entryAt (amount score : ℕ) : UtxoCollection :=
  (∅ : UtxoCollection).insert ⟨zero32, 0⟩ ⟨amount, ⟨0, []⟩, score, false⟩

variable (s : UtxoCollection)

theorem valid_removeAll : (⟨∅, s⟩ : UtxoDiff).Valid s := by
  constructor
  · exact fun _ _ h => h
  · simp

theorem applyTo_removeAll : applyTo ⟨∅, s⟩ s = ∅ := by
  apply ext_lookup
  intro o
  rw [lookup_applyTo ⟨∅, s⟩ s o, lookup_empty, compose_of_not_added (lookup_empty o)]
  split_ifs with hs
  · rfl
  · exact lookup_eq_none.mpr hs

theorem valid_addAll : (⟨s, ∅⟩ : UtxoDiff).Valid ∅ := by
  constructor
  · simp
  · exact fun o _ _ => .inl (lookup_empty o)

theorem applyTo_addAll : applyTo ⟨s, ∅⟩ ∅ = s := by
  apply ext_lookup
  intro o
  rw [lookup_applyTo ⟨s, ∅⟩ ∅ o, compose]
  cases s.lookup o <;> simp

theorem entryAt_eq {amount score : ℕ} {o : TransactionOutpoint} {e : UtxoEntry}
    (h : (entryAt amount score).lookup o = some e) :
    e = ⟨amount, ⟨0, []⟩, e.blockDaaScore, false⟩ := by
  rw [entryAt, lookup_insert_ite] at h
  split_ifs at h
  · rw [← some.inj h]
  · simp at h

/-- An output is spent, and then appears again with a later score. -/
theorem respent_output_composes : (⟨∅, entryAt 5 1⟩ : UtxoDiff).Valid (entryAt 5 1) ∧
      (⟨entryAt 5 2, ∅⟩ : UtxoDiff).Valid (applyTo ⟨∅, entryAt 5 1⟩ (entryAt 5 1)) ∧
      ∃ r, withDiff ⟨∅, entryAt 5 1⟩ ⟨entryAt 5 2, ∅⟩ = .ok r ∧ r.applyTo (entryAt 5 1) =
        applyTo ⟨entryAt 5 2, ∅⟩ (applyTo ⟨∅, entryAt 5 1⟩ (entryAt 5 1)) := by
  have hlater : (⟨entryAt 5 2, ∅⟩ : UtxoDiff).Valid (applyTo ⟨∅, entryAt 5 1⟩ (entryAt 5 1)) := by
    rw [applyTo_removeAll]
    exact valid_addAll _
  have htold : ToldByScore [entryAt 5 1, applyTo ⟨∅, entryAt 5 1⟩ (entryAt 5 1),
      applyTo ⟨entryAt 5 2, ∅⟩ (applyTo ⟨∅, entryAt 5 1⟩ (entryAt 5 1))] := by
    rw [applyTo_removeAll, applyTo_addAll]
    have hread : ∀ t ∈ [entryAt 5 1, ∅, entryAt 5 2], ∀ o e, t.lookup o = some e →
        e = ⟨5, ⟨0, []⟩, e.blockDaaScore, false⟩ := by
      intro t ht o e he
      simp only [mem_cons, not_mem_nil, or_false] at ht
      rcases ht with rfl | rfl | rfl
      · exact entryAt_eq he
      · simp at he
      · exact entryAt_eq he
    intro a ha b hb o e e' he he' hscore
    rw [hread a ha o e he, hread b hb o e' he', hscore]
  obtain ⟨r, hr, happly, -⟩ := (diff_algebra (valid_removeAll (entryAt 5 1))).1 _ hlater htold
  exact ⟨valid_removeAll _, hlater, r, hr, happly⟩

/-- With the same score but another amount, composing loses the addition: the entry that
was removed is there again. -/
theorem same_score_not_composed : (⟨∅, entryAt 5 1⟩ : UtxoDiff).Valid (entryAt 5 1) ∧
      (⟨entryAt 7 1, ∅⟩ : UtxoDiff).Valid (applyTo ⟨∅, entryAt 5 1⟩ (entryAt 5 1)) ∧
      ∃ r, withDiff ⟨∅, entryAt 5 1⟩ ⟨entryAt 7 1, ∅⟩ = .ok r ∧ r.applyTo (entryAt 5 1) ≠
          applyTo ⟨entryAt 7 1, ∅⟩ (applyTo ⟨∅, entryAt 5 1⟩ (entryAt 5 1)) := by
  refine ⟨valid_removeAll _, ?_, ?_⟩
  · rw [applyTo_removeAll]
    exact valid_addAll _
  · obtain ⟨r, hr, htest⟩ : ∃ r, withDiff ⟨∅, entryAt 5 1⟩ ⟨entryAt 7 1, ∅⟩ = .ok r ∧
        decide (r.applyTo (entryAt 5 1) ≠
          applyTo ⟨entryAt 7 1, ∅⟩ (applyTo ⟨∅, entryAt 5 1⟩ (entryAt 5 1))) = true :=
      exists_ok_of_any (by decide +kernel)
    exact ⟨r, hr, of_decide_eq_true htest⟩

end Samples

end UtxoDiff
end CryptixAtomic

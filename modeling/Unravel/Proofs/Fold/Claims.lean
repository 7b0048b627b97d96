import Mathlib
import Unravel.Pass.Fold

/-!
Claims on the sources of folded values. A source is claimed when its value is consumed by something
that goes. Claims on a list of sources act one after another; what they do to instructions before
an index depends only on what was erased there. A choice of stack slots says which values will be
claimed later, and `keep` is the stack without them.
-/
namespace Unravel.Fold

mutual

def Source.Below (t : Nat) : Source → Prop
  | .site index => index < t
  | .copy index sources => index < t ∧ SourcesBelow t sources

def SourcesBelow (t : Nat) : List Source → Prop
  | [] => True
  | s :: rest => s.Below t ∧ SourcesBelow t rest

end

def Agree (t : Nat) (e f : List Nat) : Prop := ∀ j < t, j ∈ e ↔ j ∈ f

theorem Agree.refl (t : Nat) (e : List Nat) : Agree t e e := fun _ _ => Iff.rfl

theorem Agree.trans {t : Nat} {e f g : List Nat} (first : Agree t e f) (second : Agree t f g) :
    Agree t e g := fun j before => (first j before).trans (second j before)

theorem Agree.cons {t : Nat} {e f : List Nat} (same : Agree t e f) (i : Nat) :
    Agree t (i :: e) (i :: f) := by
  intro j before
  simp only [List.mem_cons, same j before]

theorem Agree.cons_beyond {t i : Nat} (beyond : t ≤ i) (e : List Nat) : Agree t (i :: e) e := by
  intro j before
  simp only [List.mem_cons]
  constructor
  · rintro (same | inside)
    · omega
    · exact inside
  · exact Or.inr

theorem Agree.mono {s t : Nat} {e f : List Nat} (le : s ≤ t) (same : Agree t e f) : Agree s e f :=
  fun j before => same j (Nat.lt_of_lt_of_le before le)

mutual

theorem Source.Below.mono {s t : Nat} (le : s ≤ t) : ∀ x : Source, x.Below s → x.Below t
  | .site _, below => by
    simp only [Source.Below] at below ⊢
    omega
  | .copy _ sources, below => by
    simp only [Source.Below] at below ⊢
    exact ⟨by omega, SourcesBelow.mono le sources below.2⟩

theorem SourcesBelow.mono {s t : Nat} (le : s ≤ t) :
    ∀ xs : List Source, SourcesBelow s xs → SourcesBelow t xs
  | [], _ => trivial
  | x :: rest, below => ⟨Source.Below.mono le x below.1, SourcesBelow.mono le rest below.2⟩

end

theorem sourcesBelow_iff {t : Nat} (xs : List Source) :
    SourcesBelow t xs ↔ ∀ x ∈ xs, x.Below t := by
  induction xs with
  | nil => simp [SourcesBelow]
  | cons x rest ih => simp [SourcesBelow, ih]

theorem sourcesBelow_append {t : Nat} (xs ys : List Source) :
    SourcesBelow t (xs ++ ys) ↔ SourcesBelow t xs ∧ SourcesBelow t ys := by
  simp only [sourcesBelow_iff, List.mem_append]
  grind

theorem SourcesBelow.of_perm {t : Nat} {xs ys : List Source} (below : SourcesBelow t ys)
    (perm : xs.Perm ys) : SourcesBelow t xs := by
  rw [sourcesBelow_iff] at below ⊢
  exact fun x inside => below x (perm.mem_iff.mp inside)

mutual

theorem Source.drop_agree {t : Nat} : ∀ (x : Source) {e f : List Nat}, x.Below t → Agree t e f →
    Agree t (x.drop e) (x.drop f)
  | .site index, e, f, _, same => by
    simp only [Source.drop]
    exact same.cons index
  | .copy index sources, e, f, below, same => by
    simp only [Source.Below] at below
    have test : e.contains index = f.contains index := by
      rw [Bool.eq_iff_iff, List.contains_iff_mem, List.contains_iff_mem]
      exact same index below.1
    simp only [Source.drop, test]
    split
    · exact dropSources_agree sources below.2 same
    · exact same.cons index

theorem dropSources_agree {t : Nat} : ∀ (xs : List Source) {e f : List Nat}, SourcesBelow t xs →
    Agree t e f → Agree t (dropSources xs e) (dropSources xs f)
  | [], _, _, _, same => same
  | x :: rest, _, _, below, same => by
    simp only [dropSources]
    exact dropSources_agree rest below.2 (Source.drop_agree x below.1 same)

end

mutual

theorem Source.mem_drop_mono : ∀ (x : Source) {e : List Nat} {j : Nat}, j ∈ e → j ∈ x.drop e
  | .site index, e, j, inside => by
    simp only [Source.drop]
    exact List.mem_cons_of_mem _ inside
  | .copy index sources, e, j, inside => by
    simp only [Source.drop]
    split
    · exact mem_dropSources_mono sources inside
    · exact List.mem_cons_of_mem _ inside

theorem mem_dropSources_mono : ∀ (xs : List Source) {e : List Nat} {j : Nat}, j ∈ e →
    j ∈ dropSources xs e
  | [], _, _, inside => inside
  | x :: rest, _, _, inside => by
    simp only [dropSources]
    exact mem_dropSources_mono rest (Source.mem_drop_mono x inside)

end

mutual

theorem Source.mem_drop_below {t : Nat} : ∀ (x : Source) {e : List Nat} {j : Nat}, x.Below t →
    j ∈ x.drop e → j ∈ e ∨ j < t
  | .site index, e, j, below, inside => by
    simp only [Source.Below] at below
    simp only [Source.drop, List.mem_cons] at inside
    rcases inside with same | inside
    · exact Or.inr (by omega)
    · exact Or.inl inside
  | .copy index sources, e, j, below, inside => by
    simp only [Source.Below] at below
    simp only [Source.drop] at inside
    split at inside
    · exact mem_dropSources_below sources below.2 inside
    · rcases List.mem_cons.mp inside with same | inside
      · exact Or.inr (by omega)
      · exact Or.inl inside

theorem mem_dropSources_below {t : Nat} : ∀ (xs : List Source) {e : List Nat} {j : Nat},
    SourcesBelow t xs → j ∈ dropSources xs e → j ∈ e ∨ j < t
  | [], _, _, _, inside => Or.inl inside
  | x :: rest, _, _, below, inside => by
    simp only [dropSources] at inside
    rcases mem_dropSources_below rest below.2 inside with early | early
    · exact Source.mem_drop_below x below.1 early
    · exact Or.inr early

end

theorem dropSources_append (xs ys : List Source) (e : List Nat) :
    dropSources (xs ++ ys) e = dropSources ys (dropSources xs e) := by
  induction xs generalizing e with
  | nil => rfl
  | cons x rest ih => simp only [List.cons_append, dropSources, ih]

theorem dropSources_skip {t : Nat} {xs ys : List Source} {x : Source} {e : List Nat}
    (below : SourcesBelow t ys)
    (erases : ∀ f, f = dropSources xs e → x.drop f = t :: f) :
    Agree t (dropSources (xs ++ x :: ys) e) (dropSources (xs ++ ys) e) := by
  simp only [dropSources_append, dropSources]
  rw [erases _ rfl]
  exact dropSources_agree ys below (Agree.cons_beyond (Nat.le_refl t) _)

theorem not_mem_dropSources {t : Nat} {xs : List Source} {e : List Nat}
    (below : SourcesBelow t xs) (erased : ∀ j ∈ e, j < t) : t ∉ dropSources xs e := by
  intro inside
  rcases mem_dropSources_below xs below inside with early | early
  · exact absurd (erased t early) (by omega)
  · omega

theorem drop_copy_fresh {t : Nat} {sources : List Source} {e : List Nat} (fresh : t ∉ e) :
    (Source.copy t sources).drop e = t :: e := by
  simp [Source.drop, fresh]

theorem drop_copy_again {t : Nat} {sources : List Source} {e : List Nat} (again : t ∈ e) :
    (Source.copy t sources).drop e = dropSources sources e := by
  simp [Source.drop, again]

theorem dropSources_copy_twice {t : Nat} {xs ys zs sources : List Source} {e : List Nat}
    (erased : ∀ j ∈ e, j < t) (belowX : SourcesBelow t xs) (belowY : SourcesBelow t ys)
    (belowZ : SourcesBelow t zs) (belowS : SourcesBelow t sources) :
    Agree t (dropSources (xs ++ .copy t sources :: (ys ++ .copy t sources :: zs)) e)
      (dropSources (xs ++ (ys ++ (sources ++ zs))) e) := by
  have fresh := not_mem_dropSources belowX erased
  simp only [dropSources_append, dropSources]
  rw [drop_copy_fresh fresh, drop_copy_again (mem_dropSources_mono ys List.mem_cons_self)]
  apply dropSources_agree zs belowZ
  apply dropSources_agree sources belowS
  exact dropSources_agree ys belowY (Agree.cons_beyond (Nat.le_refl t) _)

/-- A choice of stack slots whose values go, with the claims that this makes. Only known values
    can go. -/
inductive Choice : List (Option Known) → List Bool → List Source → Prop where
  | nil : Choice [] [] []
  | stays {stack gone claims} (slot : Option Known) (rest : Choice stack gone claims) :
      Choice (slot :: stack) (false :: gone) claims
  | goes {stack gone claims} (known : Known) (rest : Choice stack gone claims) :
      Choice (some known :: stack) (true :: gone) (known.sources ++ claims)

/-- Claims come in the order in which values are consumed. -/
def Plan (stack : List (Option Known)) (gone : List Bool) (claims : List Source) : Prop :=
  ∃ base, Choice stack gone base ∧ claims.Perm base

def keep {α : Type} : List Bool → List α → List α
  | [], values => values
  | _ :: _, [] => []
  | true :: gone, _ :: values => keep gone values
  | false :: gone, v :: values => v :: keep gone values

@[simp] theorem keep_nil {α : Type} (values : List α) : keep [] values = values := by
  cases values <;> rfl

@[simp] theorem keep_goes {α : Type} (gone : List Bool) (v : α) (values : List α) :
    keep (true :: gone) (v :: values) = keep gone values := rfl

@[simp] theorem keep_stays {α : Type} (gone : List Bool) (v : α) (values : List α) :
    keep (false :: gone) (v :: values) = v :: keep gone values := rfl

theorem plan_nothing (stack : List (Option Known)) :
    ∃ gone, Plan stack gone [] ∧ ∀ {α : Type} (values : List α), keep gone values = values := by
  induction stack with
  | nil => exact ⟨[], ⟨[], .nil, .refl _⟩, fun values => keep_nil values⟩
  | cons slot stack ih =>
    obtain ⟨gone, ⟨base, choice, perm⟩, same⟩ := ih
    refine ⟨false :: gone, ⟨base, .stays slot choice, perm⟩, ?_⟩
    intro α values
    cases values with
    | nil => rfl
    | cons v values => simp [same]

theorem plan_untail {stack : List (Option Known)} {gone : List Bool} {claims : List Source}
    (plan : Plan stack.tail gone claims) :
    ∃ more, Plan stack more claims ∧
      ∀ {α : Type} (v : α) (values : List α), keep more (v :: values) = v :: keep gone values := by
  obtain ⟨base, choice, perm⟩ := plan
  cases stack with
  | nil =>
    cases choice
    exact ⟨[], ⟨[], .nil, perm⟩, fun v values => by simp⟩
  | cons slot stack => exact ⟨false :: gone, ⟨base, .stays slot choice, perm⟩, fun v values => rfl⟩

theorem plan_undrop {stack : List (Option Known)} {gone : List Bool} {claims : List Source}
    (n : Nat) (plan : Plan (stack.drop n) gone claims) :
    ∃ more, Plan stack more claims ∧
      ∀ {α : Type} (front values : List α), front.length = n →
        keep more (front ++ values) = front ++ keep gone values := by
  induction n generalizing stack with
  | zero =>
    refine ⟨gone, by simpa using plan, ?_⟩
    intro α front values none
    rw [List.length_eq_zero_iff.mp none]
    rfl
  | succ n ih =>
    have shifted : Plan (stack.tail.drop n) gone claims := by
      simpa [List.drop_tail] using plan
    obtain ⟨mid, midPlan, midKeep⟩ := ih shifted
    obtain ⟨more, morePlan, moreKeep⟩ := plan_untail midPlan
    refine ⟨more, morePlan, ?_⟩
    intro α front values count
    cases front with
    | nil => cases count
    | cons v front =>
      rw [List.cons_append, moreKeep, midKeep front values (by simpa using count)]
      rfl

theorem plan_below {t : Nat} {stack : List (Option Known)} {gone : List Bool}
    {claims : List Source} (plan : Plan stack gone claims)
    (below : ∀ k, some k ∈ stack → SourcesBelow t k.sources) : SourcesBelow t claims := by
  obtain ⟨base, choice, perm⟩ := plan
  have baseBelow : SourcesBelow t base := by
    clear perm
    induction choice with
    | nil => trivial
    | stays slot rest ih => exact ih fun k inside => below k (List.mem_cons_of_mem _ inside)
    | goes known rest ih =>
      rw [sourcesBelow_append]
      exact ⟨below known List.mem_cons_self,
        ih fun k inside => below k (List.mem_cons_of_mem _ inside)⟩
  exact baseBelow.of_perm perm

/-- A value that the instruction at an index made on top of others. If it goes, the instruction
    is erased and the claim on it can be left out before the index. -/
theorem plan_site {t : Nat} {v : Constant} {sources : List Source} {stack : List (Option Known)}
    {gone : List Bool} {claims : List Source} {e : List Nat}
    (plan : Plan (some ⟨v, .site t :: sources⟩ :: stack) gone claims)
    (below : ∀ k, some k ∈ stack → SourcesBelow t k.sources) (belowS : SourcesBelow t sources)
    (erased : ∀ j ∈ e, j < t) :
    ∃ d rest base early, gone = d :: rest ∧ Choice stack rest base ∧
      early.Perm ((if d then sources else []) ++ base) ∧
      Agree t (dropSources claims e) (dropSources early e) ∧
      (t ∈ dropSources claims e ↔ d = true) := by
  obtain ⟨base, choice, perm⟩ := plan
  cases choice with
  | @stays _ rest _ _ choice =>
    have free := not_mem_dropSources (plan_below ⟨base, choice, perm⟩ below) erased
    exact ⟨false, rest, base, claims, rfl, choice, by simpa using perm, Agree.refl _ _,
      by simpa using free⟩
  | @goes _ rest base _ choice =>
    obtain ⟨xs, ys, rfl⟩ := List.append_of_mem (perm.symm.subset List.mem_cons_self)
    have tail : (xs ++ ys).Perm (sources ++ base) :=
      (List.perm_middle.symm.trans perm).cons_inv
    have belowBase := plan_below ⟨base, choice, .refl base⟩ below
    have belowAll := ((sourcesBelow_append _ _).mpr ⟨belowS, belowBase⟩).of_perm tail
    rw [sourcesBelow_append] at belowAll
    refine ⟨true, rest, base, xs ++ ys, rfl, choice, tail,
      dropSources_skip belowAll.2 (fun f _ => rfl), ?_⟩
    simp only [dropSources_append, dropSources, Source.drop, iff_true]
    exact mem_dropSources_mono ys List.mem_cons_self

theorem perm_cons_twice {x : Source} {claims base : List Source}
    (perm : claims.Perm (x :: x :: base)) :
    ∃ xs ys zs, claims = xs ++ x :: (ys ++ x :: zs) ∧ (xs ++ (ys ++ zs)).Perm base := by
  obtain ⟨front, back, rfl⟩ := List.append_of_mem (perm.symm.subset List.mem_cons_self)
  have once : (front ++ back).Perm (x :: base) := (List.perm_middle.symm.trans perm).cons_inv
  have again : x ∈ front ++ back := once.symm.subset List.mem_cons_self
  rcases List.mem_append.mp again with inFront | inBack
  · obtain ⟨xs, ys, rfl⟩ := List.append_of_mem inFront
    refine ⟨xs, ys, back, by simp, ?_⟩
    have twice : (xs ++ x :: (ys ++ back)).Perm (x :: base) := by simpa using once
    exact (List.perm_middle.symm.trans twice).cons_inv
  · obtain ⟨ys, zs, rfl⟩ := List.append_of_mem inBack
    refine ⟨front, ys, zs, rfl, ?_⟩
    have twice : ((front ++ ys) ++ x :: zs).Perm (x :: base) := by simpa using once
    simpa using (List.perm_middle.symm.trans twice).cons_inv

theorem claim_once {t : Nat} {sources base xs ys : List Source} {e : List Nat}
    (below : SourcesBelow t base) (erased : ∀ j ∈ e, j < t)
    (perm : (xs ++ .copy t sources :: ys).Perm (.copy t sources :: base)) :
    (xs ++ ys).Perm base ∧
      Agree t (dropSources (xs ++ .copy t sources :: ys) e) (dropSources (xs ++ ys) e) ∧
      t ∈ dropSources (xs ++ .copy t sources :: ys) e := by
  have tail : (xs ++ ys).Perm base := (List.perm_middle.symm.trans perm).cons_inv
  have belowAll := below.of_perm tail
  rw [sourcesBelow_append] at belowAll
  have fresh := not_mem_dropSources belowAll.1 erased
  refine ⟨tail, dropSources_skip belowAll.2 ?_, ?_⟩
  · rintro f rfl
    exact drop_copy_fresh fresh
  · simp only [dropSources_append, dropSources]
    rw [drop_copy_fresh fresh]
    exact mem_dropSources_mono ys List.mem_cons_self

theorem claim_twice {t : Nat} {sources base xs ys zs : List Source} {e : List Nat}
    (below : SourcesBelow t base) (belowS : SourcesBelow t sources) (erased : ∀ j ∈ e, j < t)
    (perm : (xs ++ (ys ++ zs)).Perm base) :
    (xs ++ (ys ++ (sources ++ zs))).Perm (sources ++ base) ∧
      Agree t (dropSources (xs ++ .copy t sources :: (ys ++ .copy t sources :: zs)) e)
        (dropSources (xs ++ (ys ++ (sources ++ zs))) e) ∧
      t ∈ dropSources (xs ++ .copy t sources :: (ys ++ .copy t sources :: zs)) e := by
  have belowAll := below.of_perm perm
  rw [sourcesBelow_append, sourcesBelow_append] at belowAll
  obtain ⟨belowX, belowY, belowZ⟩ := belowAll
  refine ⟨?_, dropSources_copy_twice erased belowX belowY belowZ belowS, ?_⟩
  · have front : (xs ++ (ys ++ (sources ++ zs))).Perm (sources ++ (xs ++ (ys ++ zs))) := by
      rw [← List.append_assoc xs, ← List.append_assoc xs, ← List.append_assoc,
        ← List.append_assoc]
      exact List.perm_append_comm.append_right zs
    exact front.trans (perm.append_left sources)
  · simp only [dropSources_append, dropSources]
    rw [drop_copy_fresh (not_mem_dropSources belowX erased)]
    apply mem_dropSources_mono
    apply Source.mem_drop_mono
    exact mem_dropSources_mono ys List.mem_cons_self

/-- The two copies of a value that a `dup` at an index read. The first copy that goes erases the
    `dup`; with the second, what was copied goes. -/
theorem plan_copies {t : Nat} {v : Constant} {sources : List Source}
    {stack : List (Option Known)} {gone : List Bool} {claims : List Source} {e : List Nat}
    (plan : Plan (some ⟨v, [.copy t sources]⟩ :: some ⟨v, [.copy t sources]⟩ :: stack) gone claims)
    (below : ∀ k, some k ∈ stack → SourcesBelow t k.sources) (belowS : SourcesBelow t sources)
    (erased : ∀ j ∈ e, j < t) :
    ∃ c d rest base early, gone = c :: d :: rest ∧ Choice stack rest base ∧
      early.Perm ((if c && d then sources else []) ++ base) ∧
      Agree t (dropSources claims e) (dropSources early e) ∧
      (t ∈ dropSources claims e ↔ (c || d) = true) := by
  obtain ⟨all, choice, perm⟩ := plan
  cases choice with
  | stays _ choice =>
    cases choice with
    | @stays _ rest _ _ choice =>
      have free := not_mem_dropSources (plan_below ⟨_, choice, perm⟩ below) erased
      exact ⟨false, false, rest, _, claims, rfl, choice, by simpa using perm, Agree.refl _ _,
        by simpa using free⟩
    | @goes _ rest base _ choice =>
      obtain ⟨xs, ys, rfl⟩ := List.append_of_mem (perm.symm.subset List.mem_cons_self)
      have belowBase := plan_below ⟨base, choice, .refl base⟩ below
      obtain ⟨tail, agree, inside⟩ := claim_once belowBase erased perm
      exact ⟨false, true, rest, base, xs ++ ys, rfl, choice, by simpa using tail, agree,
        by simpa using inside⟩
  | goes _ choice =>
    cases choice with
    | @stays _ rest _ _ choice =>
      obtain ⟨xs, ys, rfl⟩ := List.append_of_mem (perm.symm.subset List.mem_cons_self)
      have belowBase := plan_below ⟨_, choice, .refl _⟩ below
      obtain ⟨tail, agree, inside⟩ := claim_once belowBase erased perm
      exact ⟨true, false, rest, _, xs ++ ys, rfl, choice, by simpa using tail, agree,
        by simpa using inside⟩
    | @goes _ rest base _ choice =>
      have belowBase := plan_below ⟨base, choice, .refl base⟩ below
      obtain ⟨xs, ys, zs, rfl, tail⟩ := perm_cons_twice perm
      obtain ⟨perm, agree, inside⟩ := claim_twice belowBase belowS erased tail
      exact ⟨true, true, rest, base, _, rfl, choice, perm, agree, by simpa using inside⟩

end Unravel.Fold

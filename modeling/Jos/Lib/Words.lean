import Mathlib.Data.Nat.Find
import Mathlib.Data.List.Pairwise
import Mathlib.Tactic.Push

/-!
The words of a line of `n` positions: the maximal stretches of positions in
which `P` holds. They are collected from the left. A position where no word goes
on is either behind a word, or a place where the next one can begin.
-/

namespace Jos.Lib

variable {P : ℕ → Prop} {n p p' : ℕ} {l : List (ℕ × ℕ)}

/-- The positions from `i` to before `j` are a word. -/
structure IsWord (P : ℕ → Prop) (n i j : ℕ) : Prop where
  lt : i < j
  le : j ≤ n
  all : ∀ q, i ≤ q → q < j → P q
  first : i = 0 ∨ ¬ P (i - 1)
  last : j = n ∨ ¬ P j

/-- The words that end at `p` or before it, in order. -/
structure WordsTo (P : ℕ → Prop) (n p : ℕ) (l : List (ℕ × ℕ)) : Prop where
  sorted : l.Pairwise fun a b => a.2 < b.1
  mem : ∀ i j, (i, j) ∈ l ↔ IsWord P n i j ∧ j ≤ p

theorem WordsTo.zero : WordsTo P n 0 [] :=
  ⟨List.Pairwise.nil, fun i j =>
    ⟨fun h => absurd h List.not_mem_nil, fun h => absurd h.1.lt (by omega)⟩⟩

/-- Positions that are in no word. -/
theorem WordsTo.skip (h : WordsTo P n p l) (hle : p ≤ p')
    (hout : ∀ q, p ≤ q → q < p' → ¬ P q) : WordsTo P n p' l where
  sorted := h.sorted
  mem i j := by
    rw [h.mem]
    refine and_congr_right fun hword => ⟨fun hj => le_trans hj hle, fun hj => ?_⟩
    by_contra hlt
    have hlast := hword.lt
    exact hout (j - 1) (by omega) (by omega) (hword.all (j - 1) (by omega) (by omega))

/-- A word. -/
theorem WordsTo.word (h : WordsTo P n p l) (hword : IsWord P n p p') :
    WordsTo P n p' (l ++ [(p, p')]) where
  sorted := by
    rw [List.pairwise_append]
    refine ⟨h.sorted, List.pairwise_singleton _ _, fun a ha b hb => ?_⟩
    obtain rfl := List.mem_singleton.mp hb
    obtain ⟨hbefore, hle⟩ := (h.mem a.1 a.2).mp ha
    -- no word ends where the next one begins
    refine lt_of_le_of_ne hle fun heq => ?_
    have hend := hbefore.last
    have hlt := hword.lt
    have hn := hword.le
    rw [heq] at hend
    rcases hend with hend | hend
    · omega
    · exact hend (hword.all p le_rfl hlt)
  mem i j := by
    rw [List.mem_append, h.mem, List.mem_singleton, Prod.mk.injEq]
    have hlt := hword.lt
    constructor
    · rintro (⟨h, hle⟩ | ⟨rfl, rfl⟩)
      · exact ⟨h, by omega⟩
      · exact ⟨hword, le_rfl⟩
    · rintro ⟨hij, hj⟩
      rcases le_or_gt j p with hjp | hpj
      · exact Or.inl ⟨hij, hjp⟩
      · have hstart : i = p := by
          rcases lt_trichotomy i p with hip | heq | hpi
          · rcases hword.first with hzero | hfirst
            · omega
            · exact absurd (hij.all (p - 1) (by omega) (by omega)) hfirst
          · exact heq
          · have hi := hij.lt
            rcases hij.first with hzero | hfirst
            · omega
            · exact absurd (hword.all (i - 1) (by omega) (by omega)) hfirst
        have hend : j = p' := by
          by_contra hne
          have hn := hword.le
          rcases hij.last with hlast | hlast
          · omega
          · exact hlast (hword.all j (by omega) (by omega))
        exact Or.inr ⟨hstart, hend⟩

/-- A word that has begun ends. -/
theorem exists_word (hfirst : p = 0 ∨ ¬ P (p - 1)) (hp : P p) (hn : p < n) :
    ∃ p', IsWord P n p p' := by
  classical
  have hex : ∃ q, p < q ∧ (q = n ∨ ¬ P q) := ⟨n, hn, Or.inl rfl⟩
  obtain ⟨hlt, hlast⟩ := Nat.find_spec hex
  have hleast (q : ℕ) (hpq : p < q) (hq : q < Nat.find hex) : q ≠ n ∧ P q := by
    have hnot := Nat.find_min hex hq
    push Not at hnot
    exact hnot hpq
  refine ⟨Nat.find hex, hlt, Nat.find_min' hex ⟨hn, Or.inl rfl⟩, fun q hpq hq => ?_, hfirst, hlast⟩
  rcases Nat.eq_or_lt_of_le hpq with rfl | hpq
  · exact hp
  · exact (hleast q hpq hq).2

/-- The words up to a place between words are the first ones of all. -/
theorem WordsTo.complete (h : WordsTo P n p l) (hle : p ≤ n)
    (hgap : p = 0 ∨ ¬ P (p - 1) ∨ p = n ∨ ¬ P p) : ∃ l', l <+: l' ∧ WordsTo P n n l' := by
  obtain ⟨k, hk⟩ : ∃ k, n - p = k := ⟨_, rfl⟩
  induction k using Nat.strong_induction_on generalizing p l with
  | _ k ih =>
      rcases Nat.eq_or_lt_of_le hle with rfl | hlt
      · exact ⟨l, List.prefix_refl l, h⟩
      · by_cases hp : P p
        · have hfirst : p = 0 ∨ ¬ P (p - 1) := by
            rcases hgap with hzero | hbefore | hend | hnot
            · exact Or.inl hzero
            · exact Or.inr hbefore
            · omega
            · exact absurd hp hnot
          obtain ⟨p', hword⟩ := exists_word hfirst hp hlt
          have hgt := hword.lt
          have hlast : p' = n ∨ ¬ P p' := hword.last
          obtain ⟨l', hfirsts, hl'⟩ := ih (n - p') (by omega) (h.word hword) hword.le
            (Or.inr (Or.inr hlast)) rfl
          exact ⟨l', (List.prefix_append l _).trans hfirsts, hl'⟩
        · have hskip : WordsTo P n (p + 1) l :=
            h.skip (by omega) fun q hpq hq => by
              obtain rfl : q = p := by omega
              exact hp
          exact ih (n - (p + 1)) (by omega) hskip hlt (Or.inr (Or.inl hp)) rfl

end Jos.Lib

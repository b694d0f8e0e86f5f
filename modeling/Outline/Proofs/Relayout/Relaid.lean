import Mathlib.Data.List.TakeWhile
import Outline.Text.Blank

/-!
# Texts in another layout

Two texts are the same in different layouts if one arises from the other by replacing runs of blank
characters by other runs.  No run appears and none vanishes, so that what was apart stays apart.

* `Relaid` — the relation, with a condition on the runs that may be replaced.
* `Relaid.split` — characters at the front that no replaced run touches are the same in both texts.
* `Relaid.dropBlanks` — behind the blank characters at the front the texts are still related.
-/

namespace Outline

/-- A run of blank characters. -/
structure BlankRun (b : List Char) : Prop where
  /-- It is not empty. -/
  ne_nil : b ≠ []
  /-- It holds blank characters only. -/
  blank : ∀ c ∈ b, Text.isBlank c = true

/-- The text from the offset `p` on, the text from the offset `q` on: the second one is the first
one with some blank runs replaced.  The run `b` at the offset `p` may become the run `b'` at the
offset `q` where `allowed p b q b'`. -/
inductive Relaid (allowed : Nat → List Char → Nat → List Char → Prop) :
    Nat → List Char → Nat → List Char → Prop where
  /-- Nothing is left. -/
  | nil (p q : Nat) : Relaid allowed p [] q []
  /-- The same character. -/
  | keep (c : Char) {p q : Nat} {cs ds : List Char}
      (tail : Relaid allowed (p + 1) cs (q + 1) ds) : Relaid allowed p (c :: cs) q (c :: ds)
  /-- A blank run in place of a blank run. -/
  | replace {p q : Nat} {b b' cs ds : List Char} (old : BlankRun b) (new : BlankRun b')
      (ok : allowed p b q b') (tail : Relaid allowed (p + b.length) cs (q + b'.length) ds) :
      Relaid allowed p (b ++ cs) q (b' ++ ds)

/-- A run of one character. -/
theorem BlankRun.single {c : Char} (hc : Text.isBlank c = true) : BlankRun [c] where
  ne_nil := List.cons_ne_nil c []
  blank := by
    intro d hd
    rwa [List.mem_singleton.1 hd]

theorem BlankRun.exists_cons {b : List Char} (h : BlankRun b) :
    ∃ c rest, b = c :: rest ∧ Text.isBlank c = true ∧ ∀ d ∈ rest, Text.isBlank d = true := by
  obtain ⟨c, rest, rfl⟩ := List.exists_cons_of_ne_nil h.ne_nil
  exact ⟨c, rest, rfl, h.blank c (by simp), fun d hd => h.blank d (by simp [hd])⟩

namespace Relaid

variable {allowed allowed' : Nat → List Char → Nat → List Char → Prop} {p q : Nat}
  {cs ds : List Char}

/-- Every text is in its own layout. -/
theorem refl (p q : Nat) (cs : List Char) : Relaid allowed p cs q cs := by
  induction cs generalizing p q with
  | nil => exact .nil p q
  | cons c cs ih => exact .keep c (ih (p + 1) (q + 1))

/-- Characters in front that are kept. -/
theorem append_left (xs : List Char)
    (h : Relaid allowed (p + xs.length) cs (q + xs.length) ds) :
    Relaid allowed p (xs ++ cs) q (xs ++ ds) := by
  induction xs generalizing p q with
  | nil => exact h
  | cons x xs ih =>
      refine .keep x (ih ?_)
      rw [List.length_cons, ← Nat.add_assoc, ← Nat.add_assoc, Nat.add_right_comm,
        Nat.add_right_comm q] at h
      exact h

/-- The first text arises from the second one in the same way. -/
theorem symm (h : Relaid allowed p cs q ds) :
    Relaid (fun q b' p b => allowed p b q b') q ds p cs := by
  induction h with
  | nil p q => exact .nil q p
  | keep c _ ih => exact .keep c ih
  | replace old new ok _ ih => exact .replace new old ok ih

/-- Another condition, if it holds of the runs that are replaced. -/
theorem mono (h : Relaid allowed p cs q ds)
    (himp : ∀ p' b q' b', p ≤ p' → q ≤ q' → allowed p' b q' b' → allowed' p' b q' b') :
    Relaid allowed' p cs q ds := by
  induction h with
  | nil p q => exact .nil p q
  | keep c _ ih =>
      exact .keep c (ih fun p' b q' b' hp hq => himp p' b q' b' (by omega) (by omega))
  | replace old new ok _ ih =>
      refine .replace old new (himp _ _ _ _ le_rfl le_rfl ok) (ih fun p' b q' b' hp hq => ?_)
      exact himp p' b q' b' (by omega) (by omega)

/-- Where one text ends, so does the other. -/
theorem eq_nil (h : Relaid allowed p [] q ds) : ds = [] := by
  generalize hcs : ([] : List Char) = cs at h
  cases h with
  | nil => rfl
  | keep => cases hcs
  | replace old => exact absurd (List.append_eq_nil_iff.1 hcs.symm).1 old.ne_nil

/-- A character that is not blank stands at the same place of the other text. -/
theorem exists_cons {c : Char} (hc : Text.isBlank c = false) (h : Relaid allowed p (c :: cs) q ds) :
    ∃ rest, ds = c :: rest ∧ Relaid allowed (p + 1) cs (q + 1) rest := by
  generalize hcs : c :: cs = xs at h
  cases h with
  | nil => cases hcs
  | keep d tail =>
      cases hcs
      exact ⟨_, rfl, tail⟩
  | replace old =>
      obtain ⟨d, rest, rfl, hd, -⟩ := old.exists_cons
      cases hcs
      exact absurd hd (by simp [hc])

/-- Where one text has a blank character, so has the other. -/
theorem exists_blank {c : Char} (hc : Text.isBlank c = true)
    (h : Relaid allowed p (c :: cs) q ds) : ∃ d rest, ds = d :: rest ∧ Text.isBlank d = true := by
  generalize hcs : c :: cs = xs at h
  cases h with
  | nil => cases hcs
  | keep d tail =>
      cases hcs
      exact ⟨c, _, rfl, hc⟩
  | replace _ new =>
      obtain ⟨d, rest, rfl, hd, -⟩ := new.exists_cons
      exact ⟨d, _, rfl, hd⟩

/-- Characters at the front that no replaced run touches. -/
theorem split (h : Relaid allowed p cs q ds) {n : Nat} (hn : n ≤ cs.length)
    (hkept : ∀ i b q' b', i < n → b <+: cs.drop i → BlankRun b → ¬ allowed (p + i) b q' b') :
    ds.take n = cs.take n ∧ Relaid allowed (p + n) (cs.drop n) (q + n) (ds.drop n) := by
  induction h generalizing n with
  | nil p q =>
      obtain rfl : n = 0 := by simpa using hn
      exact ⟨rfl, .nil _ _⟩
  | @keep c p q cs ds tail ih =>
      cases n with
      | zero => exact ⟨rfl, .keep c tail⟩
      | succ n =>
          obtain ⟨htake, hdrop⟩ := ih (n := n) (by simpa using hn) fun i b q' b' hi hb hrun hok =>
            hkept (i + 1) b q' b' (by omega) (by simpa using hb) hrun
              (by rwa [show p + (i + 1) = p + 1 + i by omega])
          rw [show p + 1 + n = p + (n + 1) by omega, show q + 1 + n = q + (n + 1) by omega] at hdrop
          exact ⟨by simp [htake], by simpa using hdrop⟩
  | replace old new ok tail =>
      cases n with
      | zero => exact ⟨rfl, .replace old new ok tail⟩
      | succ n => exact absurd ok (hkept 0 _ _ _ (by omega) (by simp) old)

/-- Characters at the front that are not blank. -/
theorem split_solid (h : Relaid allowed p cs q ds) {n : Nat} (hn : n ≤ cs.length)
    (hsolid : ∀ c ∈ cs.take n, Text.isBlank c = false) :
    ds.take n = cs.take n ∧ Relaid allowed (p + n) (cs.drop n) (q + n) (ds.drop n) := by
  refine h.split hn fun i b q' b' hi hb hrun _ => ?_
  obtain ⟨c, rest, rfl, hc, -⟩ := hrun.exists_cons
  obtain ⟨tail, htail⟩ := hb
  have hget : cs[i]? = some c := by rw [← List.head?_drop, ← htail]; simp
  have hmem : c ∈ cs.take n :=
    List.mem_of_getElem? ((List.getElem?_take_of_lt hi).trans hget)
  rw [hsolid c hmem] at hc
  cases hc

/-- The blank characters at the front. -/
theorem dropBlanks (h : Relaid allowed p cs q ds) :
    Relaid allowed (p + (cs.takeWhile Text.isBlank).length) (cs.dropWhile Text.isBlank)
      (q + (ds.takeWhile Text.isBlank).length) (ds.dropWhile Text.isBlank) := by
  induction h with
  | nil p q => exact .nil p q
  | @keep c p q cs ds tail ih =>
      cases hc : Text.isBlank c with
      | true =>
          simpa [List.dropWhile_cons, List.takeWhile_cons, hc, Nat.add_assoc, Nat.add_comm,
            Nat.add_left_comm] using ih
      | false => simpa [List.dropWhile_cons, List.takeWhile_cons, hc] using .keep c tail
  | @replace p q b b' cs ds old new ok tail ih =>
      rw [List.dropWhile_append_of_pos old.blank, List.dropWhile_append_of_pos new.blank,
        List.takeWhile_append_of_pos old.blank, List.takeWhile_append_of_pos new.blank,
        List.length_append, List.length_append, ← Nat.add_assoc, ← Nat.add_assoc]
      exact ih

end Relaid

end Outline

import Outline.Declaration.Head
import Outline.Proofs.Written.Leads

/-!
# Lists of type parameters

A list of type parameters in angle brackets is made of names, each of which may have a bound or a
default value behind it: any tokens whose angle brackets are closed by tokens behind them.  The
operator that closes the list may close brackets of the last bound as well.

* `TypeParamList.Listed` — the tokens of such a list and the names in it.
* `TypeParamList.steps_listed` — reading them gives the names and ends with the last token.
* `Head.readTypeParams_steps`, `Extractor.method_list` — the two readers of such lists.
-/

namespace Outline

namespace TypeParamList

variable {t : TokenTree} {ts : List TokenTree} {p q : TypeParamList}

/-! ## Written lists -/

/-- How a token changes the number of angle brackets that are open. -/
def shift (t : Token) : Int := if isAngles t then opened t else 0

/-- Tokens behind the name of a type parameter, in front of which `n` angle brackets are open and
behind which `m` are.  The bracket of the list stays open, and no comma is inside this one alone. -/
inductive Bound : Int → List TokenTree → Int → Prop where
  /-- There is no token. -/
  | nil (n : Int) : Bound n [] n
  /-- A token in front of others. -/
  | cons {n m : Int} {t : TokenTree} {ts : List TokenTree}
      (hcomma : n = 1 → t.value.isSeparator "," = false) (hopen : 1 ≤ n + shift t.value)
      (hrest : Bound (n + shift t.value) ts m) : Bound n (t :: ts) m

/-- The names of type parameters and the tokens of their list behind its opening bracket. -/
inductive Listed : List String → List TokenTree → Prop where
  /-- The last type parameter with the operator that closes the list. -/
  | last {name closer : TokenTree} {bound : List TokenTree} {n : Int}
      (hname : name.kind = .identifier) (hbound : Bound 1 bound n)
      (hangles : isAngles closer.value = true) (hcloses : n + opened closer.value = 0) :
      Listed [name.text] (name :: bound ++ [closer])
  /-- A type parameter in front of others. -/
  | cons {name comma : TokenTree} {bound rest : List TokenTree} {names : List String}
      (hname : name.kind = .identifier) (hbound : Bound 1 bound 1)
      (hcomma : comma.value.isSeparator "," = true) (hrest : Listed names rest) :
      Listed (name.text :: names) (name :: bound ++ comma :: rest)

/-- The bracket of the list stays open. -/
theorem Bound.le {n m : Int} (hn : 1 ≤ n) (h : Bound n ts m) : 1 ≤ m := by
  induction h with
  | nil => exact hn
  | cons _ hopen _ ih => exact ih hopen

/-- Tokens without operators and separators are a bound. -/
theorem Bound.of_kinds {n : Int} (hn : 1 ≤ n)
    (h : ∀ t ∈ ts, t.kind ≠ .operator ∧ t.kind ≠ .separator) : Bound n ts n := by
  induction ts with
  | nil => exact .nil n
  | cons t ts ih =>
      obtain ⟨hoperator, hseparator⟩ := h t List.mem_cons_self
      have hshift : shift t.value = 0 := by
        simp [shift, isAngles, show t.value.kind ≠ .operator from hoperator]
      refine .cons (fun _ => Token.isSeparator_eq_false hseparator ",") (by omega) ?_
      rw [hshift, Int.add_zero]
      exact ih fun u hu => h u (List.mem_cons_of_mem t hu)

theorem Bound.append {n m k : Int} {us : List TokenTree} (h : Bound n ts m)
    (h' : Bound m us k) : Bound n (ts ++ us) k := by
  induction h with
  | nil => exact h'
  | cons hcomma hopen _ ih => exact .cons hcomma hopen (ih h')

/-! ## Reading lists -/

/-- Tokens that are read one after the other while the list is open. -/
inductive Steps : TypeParamList → List TokenTree → TypeParamList → Prop where
  /-- There is no token. -/
  | nil (p : TypeParamList) : Steps p [] p
  /-- A token in front of others. -/
  | cons {p q : TypeParamList} {t : TokenTree} {ts : List TokenTree} (hopen : p.isClosed = false)
      (hrest : Steps (p.read t.value) ts q) : Steps p (t :: ts) q

theorem Steps.append {r : TypeParamList} {us : List TokenTree} (h : Steps p ts q)
    (h' : Steps q us r) : Steps p (ts ++ us) r := by
  induction h with
  | nil => exact h'
  | cons hopen _ ih => exact .cons hopen (ih h')

theorem isClosed_eq_false (h : 1 ≤ p.depth) : p.isClosed = false :=
  decide_eq_false (by omega)

/-- Behind a name nothing but the depth of the list changes, up to the next comma. -/
theorem read_bound {params : List TypeRef} {n : Int}
    (hcomma : n = 1 → t.value.isSeparator "," = false) :
    read ⟨params, false, n⟩ t.value = ⟨params, false, n + shift t.value⟩ := by
  unfold read shift
  split
  · rfl
  · have hseparator : (n == 1 && t.value.isSeparator ",") = false := by
      by_cases hn : n = 1
      · rw [hcomma hn, Bool.and_false]
      · rw [beq_eq_false_iff_ne.2 hn, Bool.false_and]
    simp [hseparator]

theorem steps_bound {n m : Int} (params : List TypeRef) (hn : 1 ≤ n) (h : Bound n ts m) :
    Steps ⟨params, false, n⟩ ts ⟨params, false, m⟩ := by
  induction h with
  | nil n => exact .nil _
  | @cons n m t ts hcomma hopen _ ih =>
      refine .cons (isClosed_eq_false hn) ?_
      rw [read_bound hcomma]
      exact ih hopen

/-- An identifier is no operator and no separator. -/
theorem read_name {params : List TypeRef} (h : t.kind = .identifier) :
    read ⟨params, true, 1⟩ t.value = ⟨params ++ [.simple t.text], false, 1⟩ := by
  have hkind : t.value.kind = .identifier := h
  simp [read, isAngles, Token.isSeparator, hkind]

theorem read_comma {params : List TypeRef} (h : t.value.isSeparator "," = true) :
    read ⟨params, false, 1⟩ t.value = ⟨params, true, 1⟩ := by
  have hkind := Token.kind_of_isSeparator h
  simp [read, isAngles, h, hkind]

/-- The names of a written list are read, and the list ends with the last token. -/
theorem steps_listed {names : List String} (params : List TypeRef) (h : Listed names ts) :
    Steps ⟨params, true, 1⟩ ts ⟨params ++ names.map .simple, false, 0⟩ := by
  induction h generalizing params with
  | @last name closer bound n hname hbound hangles hcloses =>
      have hopen : 1 ≤ n := hbound.le (Int.le_refl 1)
      refine .cons (isClosed_eq_false (Int.le_refl 1)) ?_
      rw [read_name hname]
      refine (steps_bound _ (Int.le_refl 1) hbound).append (.cons (isClosed_eq_false hopen) ?_)
      rw [read, if_pos hangles, hcloses]
      exact .nil _
  | @cons name comma bound rest names hname hbound hcomma _ ih =>
      refine .cons (isClosed_eq_false (Int.le_refl 1)) ?_
      rw [read_name hname]
      refine (steps_bound _ (Int.le_refl 1) hbound).append (.cons (isClosed_eq_false (Int.le_refl 1)) ?_)
      have hlater := ih (params ++ [.simple name.text])
      rw [List.append_assoc, List.singleton_append] at hlater
      rw [read_comma hcomma, List.map_cons]
      exact hlater

/-- A comment changes nothing. -/
theorem read_comment (p : TypeParamList) (h : t.kind = .comment) : p.read t.value = p := by
  have hkind : t.value.kind = .comment := h
  simp [read, isAngles, Token.isSeparator, hkind]

theorem Steps.filter (h : Steps p ts q) : Steps p (ts.filter (·.kind != .comment)) q := by
  induction h with
  | nil => exact .nil _
  | @cons p q t ts hopen _ ih =>
      by_cases hkind : t.kind = .comment
      · rw [read_comment p hkind] at ih
        rwa [List.filter_cons_of_neg (by simp [hkind])]
      · rw [List.filter_cons_of_pos (by simp [hkind])]
        exact .cons hopen ih

end TypeParamList

/-! ## Readers of lists -/

open TypeParamList (Steps)

/-- The reader of heads. -/
theorem Head.readTypeParams_steps {p q : TypeParamList} {ts : List TokenTree}
    (h : Steps p ts q) (hq : q.isClosed = true) (rest : List TokenTree) :
    readTypeParams p (ts ++ rest) = some (q.params, rest) := by
  induction h with
  | nil p => cases rest <;> simp [readTypeParams, hq]
  | cons hopen _ ih =>
      rw [List.cons_append, readTypeParams, hopen, if_neg Bool.false_ne_true]
      exact ih hq

namespace Extractor

open MethodMachine (acceptTypeFirst)

variable {o : Owner}

/-- The machine that reads methods, where the type comes first. -/
theorem method_steps (hl : o.language.memberOrder = .typeFirst) (modifiers : List String)
    {p q : TypeParamList} {ts : List TokenTree} (h : Steps p ts q) (hp : p.isClosed = false)
    (hq : q.isClosed = true) :
    Passes o (method (.typeParamList modifiers p)) ts (method (.head true none modifiers q.params)) := by
  induction h with
  | nil p => exact absurd (hp.symm.trans hq) Bool.false_ne_true
  | @cons p q t ts hopen hrest ih =>
      by_cases hkind : t.kind = .comment
      · have hleaves := comment_leaves (o := o) (e := method (.typeParamList modifiers p)) hkind
          (.inr (.inl ⟨_, rfl⟩)) rfl rfl
        rw [TypeParamList.read_comment p hkind] at ih
        exact .cons hleaves (ih hp hq)
      · have haccept : acceptTypeFirst o (.typeParamList modifiers p) t =
            .take (if (p.read t.value).isClosed then .head true none modifiers (p.read t.value).params
              else .typeParamList modifiers (p.read t.value)) := rfl
        cases hclosed : (p.read t.value).isClosed with
        | false =>
            rw [hclosed, if_neg Bool.false_ne_true] at haccept
            exact .cons (method_takes hl hkind haccept rfl rfl) (ih hclosed hq)
        | true =>
            rw [hclosed, if_pos rfl] at haccept
            have hstep := method_takes hl hkind haccept rfl rfl
            cases hrest with
            | nil => exact .one hstep
            | cons hopen' => exact absurd (hopen'.symm.trans hclosed) Bool.false_ne_true

end Extractor

end Outline

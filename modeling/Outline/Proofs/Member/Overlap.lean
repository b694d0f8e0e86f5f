import Outline.Proofs.Member.MethodOffer
import Mathlib.Data.List.Pairwise

/-!
# Members that share a token

The machines read side by side, and each starts anew on its own.  So a machine can start inside of
what another one is reading.  This module shows where: two members that share a token share one
that one of them has used loosely, that is, without regard to what it is.

* `Extractor.isLoose` — the states in which tokens are used loosely.
* `Abreast` — what holds between the machine for fields and the one for methods.
* `Orderly.step` — one token keeps the order of the machines and of the members that have ended.
-/

namespace Outline

namespace Extractor

/-! ## Loose tokens -/

/-- Whether the machine uses tokens loosely: in the initializer of a field, in a list of type
parameters or behind the parameters of a method, and in every constant. -/
def isLoose : Extractor → Bool
  | field m => m.stage == .initializer
  | method m => m.stage.isLoose
  | enumMember _ => true
  | annotations _ | comment _ | imports _ => false

namespace Item

/-- Whether the item is a field that ends in front of the token that ends it. -/
def isEarlyField (i : Item) : Bool :=
  match i.machine with
  | field _ => i.early
  | _ => false

/-- The places of the tokens that the item has used loosely.  All tokens of a field count that ends
without a token of its own. -/
def loose (i : Item) : List Nat :=
  if i.isEarlyField then i.places
  else (i.uses.filter (·.state.isLoose)).map (·.place)

/-- Two items have a token in common. -/
def Meets (i j : Item) : Prop := ∃ p, p ∈ i.places ∧ p ∈ j.places

/-- Two items have a token in common that one of them has used loosely. -/
def MeetsLoosely (i j : Item) : Prop :=
  ∃ p, p ∈ i.places ∧ p ∈ j.places ∧ (p ∈ i.loose ∨ p ∈ j.loose)

/-- Two items that have a token in common have a loose one in common. -/
def Fine (i j : Item) : Prop := i.Meets j → i.MeetsLoosely j

theorem MeetsLoosely.symm {i j : Item} (h : i.MeetsLoosely j) : j.MeetsLoosely i := by
  obtain ⟨p, hi, hj, hloose⟩ := h
  exact ⟨p, hj, hi, hloose.symm⟩

theorem Fine.symm {i j : Item} (h : i.Fine j) : j.Fine i := by
  rintro ⟨p, hj, hi⟩
  exact (h ⟨p, hi, hj⟩).symm

theorem mem_places {i : Item} {p : Nat} : p ∈ i.places ↔ ∃ u ∈ i.uses, u.place = p :=
  List.mem_map

theorem mem_loose_of_mem {i : Item} {u : Use} (hu : u ∈ i.uses) (h : u.state.isLoose = true) :
    u.place ∈ i.loose := by
  rw [loose]
  split
  · exact mem_places.2 ⟨u, hu, rfl⟩
  · exact List.mem_map.2 ⟨u, List.mem_filter.2 ⟨hu, h⟩, rfl⟩

theorem fine_of_apart {i j : Item} (h : Tracked.Apart i.uses j.uses) : i.Fine j := by
  rintro ⟨p, hi, hj⟩
  obtain ⟨u, hu, rfl⟩ := mem_places.1 hi
  obtain ⟨v, hv, hvp⟩ := mem_places.1 hj
  exact absurd hvp.symm (h u hu v hv)

/-- A field that ends without a token of its own has used all its tokens loosely. -/
theorem fine_of_isEarlyField {i j : Item} (h : i.isEarlyField = true) : i.Fine j := by
  rintro ⟨p, hi, hj⟩
  exact ⟨p, hi, hj, Or.inl (by rwa [loose, if_pos h])⟩

/-- So has a constant. -/
theorem fine_of_all_loose {i j : Item} (h : ∀ u ∈ i.uses, u.state.isLoose = true) : i.Fine j := by
  rintro ⟨p, hi, hj⟩
  obtain ⟨u, hu, rfl⟩ := mem_places.1 hi
  exact ⟨u.place, hi, hj, Or.inl (mem_loose_of_mem hu (h u hu))⟩

end Item

/-- The item that a machine would have if it ended now. -/
def Tracked.item (w : Tracked) : Item := ⟨w.machine, w.uses, 0, false⟩

/-! ## Fields and methods -/

/-- What holds between the machine for fields and the machine for methods. -/
structure Abreast (l : Language) (f : FieldMachine) (us : List Use) (m : MethodMachine)
    (vs : List Use) : Prop where
  /-- The machine for fields waits for a token. -/
  fieldWaits : f.stage.Waits l
  /-- The machine for methods waits for a token. -/
  methodWaits : m.stage.Waits l
  /-- Both are inside the same annotation behind modifiers, unless the tokens are loose. -/
  inside : ∀ s modifiers, f.stage = .head (some s) modifiers → modifiers ≠ [] →
    m.stage = .head (some s) ∨ m.stage.isOpen = true
  /-- Neither is inside an annotation if one stands between annotations and modifiers. -/
  between : ∀ modifiers, f.stage = .head none modifiers → modifiers ≠ [] →
    ∀ s, m.stage ≠ .head (some s)
  /-- The name of a method is not read where a type of a field may start. -/
  named : f.stage = .type .idle ∨ f.stage = .type .functionArrow → m.stage ≠ .afterName
  /-- Tokens in common are loose, unless neither uses them loosely now. -/
  common : (∃ u ∈ us, ∃ v ∈ vs, u.place = v.place) →
    (∃ u ∈ us, ∃ v ∈ vs, u.place = v.place ∧ (u.state.isLoose = true ∨ v.state.isLoose = true)) ∨
      f.stage ≠ .initializer ∧ m.stage.isLoose = false

section Step

variable {l : Language} {p : Nat} {t : Token} {f f' : FieldMachine} {m m' : MethodMachine}
  {us us' vs vs' : List Use} {items : List Item}

/-- The machine for fields is idle or has used the token. -/
theorem FieldOffer.last (h : FieldOffer l p t f us f' us' items) :
    f' = .idle ∧ us' = [] ∨ ∃ f₀ front, us' = front ++ [⟨p, field f₀⟩] ∧
      FieldStage.Goes l t f₀.stage f'.stage ∧ f'.isIdle = false ∧
        (f₀ = f ∧ front = us ∨ f₀ = .idle ∧ front = []) := by
  cases h with
  | idles => exact Or.inl ⟨rfl, rfl⟩
  | starts h hm' => exact Or.inr ⟨_, [], rfl, h, hm', Or.inr ⟨rfl, rfl⟩⟩
  | goes h hm' => exact Or.inr ⟨_, us, rfl, h, hm', Or.inl ⟨rfl, rfl⟩⟩
  | ends hm h => exact Or.inl ⟨rfl, rfl⟩
  | early hm hl rest =>
      rcases rest with ⟨rfl, rfl⟩ | ⟨hgoes, hm', rfl⟩
      · exact Or.inl ⟨rfl, rfl⟩
      · exact Or.inr ⟨_, [], rfl, hgoes, hm', Or.inr ⟨rfl, rfl⟩⟩

/-- The machine for methods is idle or has used the token. -/
theorem MethodOffer.last (h : MethodOffer l p t m vs m' vs' items) :
    m'.isIdle = true ∧ vs' = [] ∨ ∃ m₀ front, vs' = front ++ [⟨p, method m₀⟩] ∧
      MethodStage.Goes l t m₀.stage m'.stage ∧
        (m₀ = m ∧ front = vs ∨ m₀ = .idle ∧ front = []) := by
  cases h with
  | idles h => exact Or.inl ⟨h, rfl⟩
  | starts h => exact Or.inr ⟨_, [], rfl, h, Or.inr ⟨rfl, rfl⟩⟩
  | goes h => exact Or.inr ⟨_, vs, rfl, h, Or.inl ⟨rfl, rfl⟩⟩
  | ends hm h => exact Or.inl ⟨rfl, rfl⟩
  | early hm rest =>
      rcases rest with ⟨h, rfl⟩ | ⟨hgoes, rfl⟩
      · exact Or.inl ⟨h, rfl⟩
      · exact Or.inr ⟨_, [], rfl, hgoes, Or.inr ⟨rfl, rfl⟩⟩

/-- Where both machines use a token and neither does so loosely, neither begins to. -/
theorem Abreast.not_loose (h : Abreast l f us m vs) {f₀ : FieldMachine} {m₀ : MethodMachine}
    (hf : FieldStage.Goes l t f₀.stage f'.stage) (hf' : f'.isIdle = false)
    (hm : MethodStage.Goes l t m₀.stage m'.stage) (hf₀ : f₀ = f ∨ f₀ = .idle)
    (hm₀ : m₀ = m ∨ m₀ = .idle) (hstrict : f₀.stage ≠ .initializer)
    (hloose : m₀.stage.isLoose = false) :
    f'.stage ≠ .initializer ∧ m'.stage.isLoose = false := by
  obtain ⟨-, -, -, hequals, harrow⟩ := hm.token hloose
  constructor
  · intro hinit
    rcases hf.initial hinit with h | h | h
    · exact hstrict h
    · rw [hequals] at h
      exact absurd h Bool.false_ne_true
    · rw [harrow] at h
      exact absurd h Bool.false_ne_true
  · rw [Bool.eq_false_iff]
    intro hloose'
    rcases hm.loose hloose' with h | h | ⟨hparen, hhead, hname⟩
    · rw [hloose] at h
      exact absurd h Bool.false_ne_true
    · exact hstrict (hf.angle h)
    · -- the parameters of a method: the machine for fields is not between the same tokens
      have hm₀ : m₀ = m := hm₀.resolve_right fun h => hhead none (by rw [h]; rfl)
      subst hm₀
      rcases hf.paren hparen with hinit | ⟨modifiers, ha, hb⟩ | ⟨hl, ha⟩
      · exact hstrict hinit
      · have hmodifiers : modifiers ≠ [] := by
          rintro rfl
          have hidle : f' = .idle := by
            cases f' <;> simp_all [FieldMachine.stage, FieldMachine.idle]
          rw [hidle] at hf'
          exact absurd hf' (by decide)
        have hf₀ : f₀ = f := by
          refine hf₀.resolve_right ?_
          rintro rfl
          simp [FieldMachine.idle, FieldMachine.stage] at ha
        rw [hf₀] at ha
        rcases h.inside _ modifiers ha hmodifiers with hin | hopen
        · exact hhead _ hin
        · have : m₀.stage.isLoose = true := by
            generalize m₀.stage = a at hopen
            cases a <;> first | rfl | exact absurd hopen (by simp [MethodStage.isOpen])
          rw [hloose] at this
          exact absurd this Bool.false_ne_true
      · have hf₀ : f₀ = f := by
          refine hf₀.resolve_right ?_
          rintro rfl
          simp [FieldMachine.idle, FieldMachine.stage] at ha
        rw [hf₀] at ha
        exact h.named ha (hname hl)

/-- Both machines use a token: it is loose, or neither uses tokens loosely now. -/
theorem Abreast.common_of_last (h : Abreast l f us m vs)
    (hfo : FieldOffer l p t f us f' us' items) {items' : List Item}
    (hmo : MethodOffer l p t m vs m' vs' items') :
    (∃ u ∈ us', ∃ v ∈ vs', u.place = v.place) →
      (∃ u ∈ us', ∃ v ∈ vs', u.place = v.place ∧
        (u.state.isLoose = true ∨ v.state.isLoose = true)) ∨
        f'.stage ≠ .initializer ∧ m'.stage.isLoose = false := by
  rintro ⟨u, hu, v, hv, -⟩
  rcases hfo.last with ⟨-, rfl⟩ | ⟨f₀, front, rfl, hf, hf', hf₀⟩
  · exact absurd hu List.not_mem_nil
  rcases hmo.last with ⟨-, rfl⟩ | ⟨m₀, front', rfl, hm, hm₀⟩
  · exact absurd hv List.not_mem_nil
  by_cases hloose : f₀.stage = .initializer ∨ m₀.stage.isLoose = true
  · refine Or.inl ⟨⟨p, field f₀⟩, by simp, ⟨p, method m₀⟩, by simp, rfl, ?_⟩
    exact hloose.imp (fun h => beq_iff_eq.2 h) id
  · rw [not_or, Bool.not_eq_true] at hloose
    exact Or.inr (h.not_loose hf hf' hm (hf₀.imp And.left And.left) (hm₀.imp And.left And.left)
      hloose.1 hloose.2)

theorem FieldOffer.waits (h : FieldOffer l p t f us f' us' items) : f'.stage.Waits l := by
  rcases h.last with ⟨rfl, -⟩ | ⟨f₀, front, -, hf, -, -⟩
  · exact FieldStage.waits_idle l
  · exact hf.waits

theorem MethodOffer.waits (h : MethodOffer l p t m vs m' vs' items) : m'.stage.Waits l := by
  rcases h.last with ⟨hm', -⟩ | ⟨m₀, front, -, hm, -⟩
  · rw [MethodMachine.stage_of_isIdle hm']
    exact waits_idle_method l
  · exact hm.waits

/-- A machine that is idle is not inside an annotation. -/
theorem MethodOffer.inside (h : MethodOffer l p t m vs m' vs' items) {s : AnnotationSkip}
    (hm' : m'.stage = .head (some s)) : t.isSeparator "@" = true ∨ t.kind = .identifier := by
  rcases h.last with ⟨hidle, -⟩ | ⟨m₀, front, -, hm, -⟩
  · rw [MethodMachine.stage_of_isIdle hidle] at hm'
    exact absurd (MethodStage.head.inj hm') (by simp)
  · exact hm.inside s hm'

theorem MethodOffer.named (h : MethodOffer l p t m vs m' vs' items)
    (hm' : m'.stage = .afterName) :
    t.kind = .identifier ∨ t.kind = .string ∨ t.isOperator "?" = true := by
  rcases h.last with ⟨hidle, -⟩ | ⟨m₀, front, -, hm, -⟩
  · rw [MethodMachine.stage_of_isIdle hidle] at hm'
    exact absurd hm' (by simp)
  · exact hm.named hm'

end Step

section Pair

variable {o : Owner} {p : Nat} {t : TokenTree} {f f' : FieldMachine} {m m' : MethodMachine}
  {us us' vs vs' : List Use} {items items' : List Item}

/-- Inside an annotation behind modifiers of a field, the machine for methods is inside it too or
uses tokens loosely. -/
theorem Abreast.inside_step (h : Abreast o.language f us m vs)
    (hfo : FieldOffer o.language p t.value f us f' us' items)
    (hm' : ((⟨method m, vs⟩ : Tracked).offer o p t).1.machine = method m') (s : AnnotationSkip)
    (modifiers : List String) (hs : f'.stage = .head (some s) modifiers)
    (hmodifiers : modifiers ≠ []) : m'.stage = .head (some s) ∨ m'.stage.isOpen = true := by
  have hsame : ∀ {n : MethodMachine},
      ((⟨method m, vs⟩ : Tracked).offer o p t).1.machine = method n → n = m' := by
    intro n hn
    rw [hm'] at hn
    exact (method.inj hn).symm
  rcases hfo.last with ⟨rfl, -⟩ | ⟨f₀, front, -, hf, -, hf₀⟩
  · simp [FieldMachine.idle, FieldMachine.stage] at hs
  · have hl := hf.waits.skip s modifiers hs
    have hf₀' : f₀ = f := by
      refine (hf₀.imp And.left And.left).resolve_right ?_
      rintro rfl
      rcases hf.inside s modifiers hs with ⟨-, -, hidle⟩ | ⟨-, -, hidle⟩
      · simp only [FieldMachine.idle, FieldMachine.stage, FieldStage.head.injEq] at hidle
        exact hmodifiers hidle.2.symm
      · simp [FieldMachine.idle, FieldMachine.stage] at hidle
    subst hf₀'
    rcases hf.inside s modifiers hs with ⟨hat, rfl, hhead⟩ | ⟨hkind, rfl, hhead⟩
    · obtain ⟨n, hn, hstage⟩ := method_offer_at p vs h.methodWaits
        (h.between modifiers hhead hmodifiers) hl hat
      rw [← hsame hn]
      exact hstage
    · rcases h.inside _ modifiers hhead hmodifiers with hin | hopen
      · obtain ⟨n, hn, hstage⟩ := method_offer_name p vs hin hl hkind
        rw [← hsame hn]
        exact Or.inl hstage
      · obtain ⟨n, hn, hstage⟩ := method_offer_open p vs h.methodWaits hopen (Or.inl hkind)
        rw [← hsame hn]
        exact Or.inr hstage

/-- Where a modifier of a field has been read last, the token neither starts an annotation nor is
the name of one. -/
theorem FieldOffer.between (hfo : FieldOffer o.language p t.value f us f' us' items)
    (hmo : MethodOffer o.language p t.value m vs m' vs' items') (modifiers : List String)
    (hs : f'.stage = .head none modifiers) (hmodifiers : modifiers ≠ []) (s : AnnotationSkip) :
    m'.stage ≠ .head (some s) := by
  intro hin
  rcases hfo.last with ⟨rfl, -⟩ | ⟨f₀, front, -, hf, -, -⟩
  · simp only [FieldMachine.idle, FieldMachine.stage, FieldStage.head.injEq] at hs
    exact hmodifiers hs.2.symm
  · rcases hmo.inside hin with hat | hkind
    · have hat := Token.kind_of_isSeparator hat
      rcases hf.between modifiers hs with h | h <;> rw [h] at hat <;> exact absurd hat (by decide)
    · rcases hf.between modifiers hs with h | h <;> rw [h] at hkind <;>
        exact absurd hkind (by decide)

/-- The mark in front of the type of a field is not the name of a method. -/
theorem FieldOffer.named (hfo : FieldOffer o.language p t.value f us f' us' items)
    (hmo : MethodOffer o.language p t.value m vs m' vs' items')
    (hs : f'.stage = .type .idle ∨ f'.stage = .type .functionArrow) : m'.stage ≠ .afterName := by
  intro hname
  rcases hfo.last with ⟨rfl, -⟩ | ⟨f₀, front, -, hf, -, -⟩
  · simp [FieldMachine.idle, FieldMachine.stage] at hs
  · have hop : t.value.isOperator ":" = true ∨ t.value.isOperator "=>" = true :=
      hs.imp hf.colon hf.arrow
    have hkind : t.value.kind = .operator := by
      rcases hop with h | h <;> exact Token.kind_of_isOperator h
    rcases hmo.named hname with h | h | h
    · rw [hkind] at h
      exact absurd h (by decide)
    · rw [hkind] at h
      exact absurd h (by decide)
    · rcases hop with h' | h'
      · rw [Token.isOperator_ne h (by decide)] at h'
        exact absurd h' Bool.false_ne_true
      · rw [Token.isOperator_ne h (by decide)] at h'
        exact absurd h' Bool.false_ne_true

/-- What an offer of a token that is no comment leaves between the two machines. -/
theorem Abreast.step (h : Abreast o.language f us m vs)
    (hfo : FieldOffer o.language p t.value f us f' us' items)
    (hmo : MethodOffer o.language p t.value m vs m' vs' items')
    (hm' : ((⟨method m, vs⟩ : Tracked).offer o p t).1.machine = method m') :
    Abreast o.language f' us' m' vs' where
  fieldWaits := hfo.waits
  methodWaits := hmo.waits
  inside := h.inside_step hfo hm'
  between := hfo.between hmo
  named := hfo.named hmo
  common := h.common_of_last hfo hmo

end Pair

section Items

variable {l : Language} {p : Nat} {t : Token} {f f' : FieldMachine} {m m' : MethodMachine}
  {us us' vs vs' : List Use} {items items' : List Item}

theorem Item.meetsLoosely_of_use {i j : Item} {u v : Use} (hu : u ∈ i.uses) (hv : v ∈ j.uses)
    (h : u.place = v.place) (hloose : u.state.isLoose = true ∨ v.state.isLoose = true) :
    i.MeetsLoosely j := by
  refine ⟨u.place, mem_places.2 ⟨u, hu, rfl⟩, mem_places.2 ⟨v, hv, h.symm⟩, ?_⟩
  rcases hloose with hloose | hloose
  · exact Or.inl (mem_loose_of_mem hu hloose)
  · refine Or.inr ?_
    rw [h]
    exact mem_loose_of_mem hv hloose

/-- A method that has used its tokens up to here and is in a loose state shares loose tokens. -/
theorem Abreast.meetsLoosely (h : Abreast l f us m vs) (hloose : m.stage.isLoose = true)
    {i j : Item} (hi : ∀ u ∈ us, u ∈ i.uses) (hj : ∀ v ∈ vs, v ∈ j.uses) {u v : Use} (hu : u ∈ us)
    (hv : v ∈ vs) (huv : u.place = v.place) : i.MeetsLoosely j := by
  rcases h.common ⟨u, hu, v, hv, huv⟩ with ⟨u', hu', v', hv', hp, hl⟩ | ⟨-, hstrict⟩
  · exact Item.meetsLoosely_of_use (hi u' hu') (hj v' hv') hp hl
  · rw [hloose] at hstrict
    exact absurd hstrict.symm Bool.false_ne_true

/-- A field that ends shares no token with a method that is read or ends, or a loose one. -/
theorem Abreast.fine_field (h : Abreast l f us m vs) (hvs : ∀ v ∈ vs, v.place < p)
    (hfo : FieldOffer l p t f us f' us' items) (hmo : MethodOffer l p t m vs m' vs' items')
    {i j : Item} (hi : i ∈ items) (hj : j.uses = vs' ∨ j ∈ items') : i.Fine j := by
  cases hfo with
  | idles => exact absurd hi List.not_mem_nil
  | starts hgoes hm' => exact absurd hi List.not_mem_nil
  | goes hgoes hm' => exact absurd hi List.not_mem_nil
  | early hm hl rest =>
      rw [List.mem_singleton.1 hi]
      exact Item.fine_of_isEarlyField rfl
  | @ends d hm hend =>
      rw [List.mem_singleton.1 hi]
      rintro ⟨q, hq, hqj⟩
      rcases hj with hj | hj
      · rcases hmo.last with ⟨-, rfl⟩ | ⟨m₀, front, rfl, hgoes, -⟩
        · rw [Item.places, hj] at hqj
          exact absurd hqj List.not_mem_nil
        · have hv : (⟨p, method m₀⟩ : Use) ∈ j.uses := by rw [hj]; simp
          by_cases hloose : f.stage = .initializer ∨ m₀.stage.isLoose = true
          · refine Item.meetsLoosely_of_use (u := ⟨p, field f⟩) (by simp) hv rfl ?_
            exact hloose.imp (fun h => beq_iff_eq.2 h) id
          · rw [not_or, Bool.not_eq_true] at hloose
            obtain ⟨hsemi, hcomma, hbrace, -⟩ := hgoes.token hloose.2
            rcases hend with hend | hend
            · rw [FieldMachine.isEnd, hsemi, hcomma] at hend
              exact absurd hend (by decide)
            · rw [hbrace] at hend
              exact absurd hend (by decide)
      · cases hmo with
        | idles => exact absurd hj List.not_mem_nil
        | starts => exact absurd hj List.not_mem_nil
        | goes => exact absurd hj List.not_mem_nil
        | ends hloose hbody =>
            obtain rfl := List.mem_singleton.1 hj
            exact Item.meetsLoosely_of_use (u := ⟨p, field f⟩) (v := ⟨p, method m⟩) (by simp)
              (by simp) rfl (Or.inr hloose)
        | early hloose rest =>
            obtain rfl := List.mem_singleton.1 hj
            obtain ⟨v, hv, rfl⟩ := Item.mem_places.1 hqj
            obtain ⟨u, hu, huv⟩ := Item.mem_places.1 hq
            rcases List.mem_append.1 hu with hu | hu
            · exact h.meetsLoosely hloose (fun u hu => List.mem_append_left _ hu)
                (fun v hv => hv) hu hv huv
            · rw [List.mem_singleton.1 hu] at huv
              have := hvs v hv
              simp only at huv
              omega

/-- A method that ends shares no token with a field that is read, or a loose one. -/
theorem Abreast.fine_method (h : Abreast l f us m vs) (hvs : ∀ v ∈ vs, v.place < p)
    (hfo : FieldOffer l p t f us f' us' items) (hmo : MethodOffer l p t m vs m' vs' items')
    {i j : Item} (hi : i.uses = us') (hj : j ∈ items') : j.Fine i := by
  rintro ⟨q, hq, hqi⟩
  rcases hfo.last with ⟨-, rfl⟩ | ⟨f₀, front, rfl, -, -, hf₀⟩
  · rw [Item.places, hi] at hqi
    exact absurd hqi List.not_mem_nil
  cases hmo with
  | idles => exact absurd hj List.not_mem_nil
  | starts => exact absurd hj List.not_mem_nil
  | goes => exact absurd hj List.not_mem_nil
  | ends hloose hbody =>
      obtain rfl := List.mem_singleton.1 hj
      exact Item.meetsLoosely_of_use (u := ⟨p, method m⟩) (v := ⟨p, field f₀⟩) (by simp)
        (by rw [hi]; simp) rfl (Or.inl hloose)
  | early hloose rest =>
      obtain rfl := List.mem_singleton.1 hj
      obtain ⟨v, hv, rfl⟩ := Item.mem_places.1 hq
      obtain ⟨u, hu, huv⟩ := Item.mem_places.1 hqi
      rw [hi] at hu
      rcases List.mem_append.1 hu with hu | hu
      · rcases hf₀ with ⟨-, rfl⟩ | ⟨-, rfl⟩
        · refine Item.MeetsLoosely.symm (h.meetsLoosely hloose ?_ (fun v hv => hv) hu hv huv)
          intro u hu
          rw [hi]
          exact List.mem_append_left _ hu
        · exact absurd hu List.not_mem_nil
      · rw [List.mem_singleton.1 hu] at huv
        have := hvs v hv
        simp only at huv
        omega

end Items

/-! ## All machines -/

/-- Whether the machine reads members. -/
def readsMembers : Extractor → Bool
  | field _ | method _ | enumMember _ => true
  | annotations _ | comment _ | imports _ => false

theorem Item.isMember_eq (i : Item) : i.isMember = i.machine.readsMembers := by
  rw [Item.isMember]
  cases i.machine <;> rfl

theorem readsMembers_of_name {e e' : Extractor} (h : e'.name = e.name) :
    e'.readsMembers = e.readsMembers := by
  cases e <;> cases e' <;> first | rfl | simp [name] at h

/-- A machine that reads members leaves comments for others. -/
theorem accept_comment {o : Owner} {t : TokenTree} {e : Extractor} (he : e.readsMembers = true)
    (ht : t.kind = .comment) : e.accept o t = .leave e := by
  have hkind : (t.kind == .comment) = true := beq_iff_eq.2 ht
  cases e with
  | field m =>
      show (m.accept o t.value).map field = _
      rw [FieldMachine.accept, if_pos (by exact hkind)]
      rfl
  | method m =>
      show (m.accept o t).map method = _
      rw [MethodMachine.accept, if_pos hkind]
      rfl
  | enumMember m =>
      show (m.accept o t).map enumMember = _
      rw [EnumMemberMachine.accept, hkind, Bool.or_true, if_pos rfl]
      rfl
  | _ => exact absurd he Bool.false_ne_true

/-- Whether the machine reads fields or methods. -/
def isStrict : Extractor → Bool
  | field _ | method _ => true
  | _ => false

theorem isStrict_of_name {e e' : Extractor} (h : e'.name = e.name) : e'.isStrict = e.isStrict := by
  cases e <;> cases e' <;> first | rfl | simp [name] at h

/-- A constant has used all its tokens loosely. -/
theorem Item.fine_of_not_strict {e : Extractor} {i j : Item} (he : e.isStrict = false)
    (hi : i.isMember = true) (hname : i.machine.name = e.name)
    (huses : ∀ u ∈ i.uses, u.state.name = e.name) : i.Fine j := by
  refine fine_of_all_loose fun u hu => ?_
  have hu := huses u hu
  cases e with
  | field f => simp [isStrict] at he
  | method m => simp [isStrict] at he
  | enumMember m =>
      generalize u.state = s at hu
      cases s <;> first | rfl | simp [name] at hu
  | annotations m =>
      cases hm : i.machine <;> rw [hm] at hname <;> simp_all [Item.isMember, name]
  | comment found? =>
      cases hm : i.machine <;> rw [hm] at hname <;> simp_all [Item.isMember, name]
  | imports m =>
      cases hm : i.machine <;> rw [hm] at hname <;> simp_all [Item.isMember, name]

namespace Tracked

/-- What holds between a machine and one that is offered tokens after it. -/
def Beside (l : Language) (w w' : Tracked) : Prop :=
  (∃ f m, w.machine = field f ∧ w'.machine = method m ∧ Abreast l f w.uses m w'.uses) ∨
    w.machine.isStrict = false ∨ w'.machine.isStrict = false

/-- What holds of a machine in front of the place `p`. -/
structure Steady (p : Nat) (w : Tracked) : Prop where
  /-- Its tokens stand before the place. -/
  below : ∀ u ∈ w.uses, u.place < p
  /-- It has used them itself. -/
  named : ∀ u ∈ w.uses, u.state.name = w.machine.name

variable {o : Owner} {p : Nat} {t : TokenTree} {w w' : Tracked}

theorem Steady.step (h : w.Steady p) : (w.offer o p t).1.Steady (p + 1) := by
  have hspends := spends_offer o t w h.below
  have hnamed := named_offer o p t w h.named
  refine ⟨?_, ?_⟩
  · intro u hu
    rcases hspends.keeps.mem hu with hu | hu
    · have := h.below u hu
      omega
    · omega
  · intro u hu
    rw [hnamed.machine]
    exact hnamed.uses u hu

/-- The members that end with an offer. -/
def ended (o : Owner) (p : Nat) (t : TokenTree) (w : Tracked) : List Item :=
  (w.offer o p t).2.1.filter (·.isMember)

theorem mem_ended {i : Item} : i ∈ w.ended o p t ↔ i ∈ (w.offer o p t).2.1 ∧ i.isMember = true :=
  List.mem_filter

theorem uses_going (e : Extractor) (uses : List Use) :
    (going e uses).uses = [] ∨ (going e uses).uses = uses := by
  simp only [going]
  split
  · exact Or.inl rfl
  · exact Or.inr rfl

/-- A comment leaves a machine that reads members as it is. -/
theorem offer_comment {e : Extractor} (p : Nat) (uses : List Use) (he : e.readsMembers = true)
    (ht : t.kind = .comment) (hf : e.isFailed = false) (hc : e.isComplete = false) :
    (⟨e, uses⟩ : Tracked).offer o p t = (going e uses, [], false) := by
  have hs : (Tracked.mk e uses).machine.accept o t = .leave e := accept_comment he ht
  rw [offer_of_going hs hf hc]
  rfl

end Tracked

open Tracked

/-- What a pair of machines makes of a token. -/
structure Parted (l : Language) (o : Owner) (p : Nat) (t : TokenTree) (w w' : Tracked) : Prop where
  /-- The machines read on side by side. -/
  beside : Beside l (w.offer o p t).1 (w'.offer o p t).1
  /-- A member of the first machine meets the second machine loosely. -/
  left : ∀ i ∈ w.ended o p t, (w'.offer o p t).1.item.isMember = true →
    i.Fine (w'.offer o p t).1.item
  /-- A member of the second machine meets the first machine loosely. -/
  right : ∀ i ∈ w'.ended o p t, (w.offer o p t).1.item.isMember = true →
    i.Fine (w.offer o p t).1.item
  /-- Members of the two machines meet loosely. -/
  both : ∀ i ∈ w.ended o p t, ∀ j ∈ w'.ended o p t, i.Fine j

theorem parted_of_comment {o : Owner} {p : Nat} {t : TokenTree} {f : FieldMachine}
    {m : MethodMachine} {us vs : List Use} (h : Abreast o.language f us m vs)
    (ht : t.kind = .comment) : Parted o.language o p t ⟨field f, us⟩ ⟨method m, vs⟩ := by
  have hof := offer_comment (o := o) (e := field f) p us rfl ht
    (FieldMachine.isFailed_of_waits h.fieldWaits) (FieldMachine.isComplete_of_waits h.fieldWaits)
  have hom := offer_comment (o := o) (e := method m) p vs rfl ht
    (MethodMachine.isFailed_of_waits h.methodWaits)
    (MethodMachine.isComplete_of_waits h.methodWaits)
  refine ⟨Or.inl ⟨f, m, by rw [hof]; rfl, by rw [hom]; rfl, ?_⟩, ?_, ?_, ?_⟩
  · rw [hof, hom]
    refine { h with common := ?_ }
    rintro ⟨u, hu, v, hv, huv⟩
    rcases uses_going (field f) us with hus | hus
    · rw [hus] at hu
      exact absurd hu List.not_mem_nil
    rcases uses_going (method m) vs with hvs | hvs
    · rw [hvs] at hv
      exact absurd hv List.not_mem_nil
    rw [hus] at hu ⊢
    rw [hvs] at hv ⊢
    exact h.common ⟨u, hu, v, hv, huv⟩
  · intro i hi
    rw [mem_ended, hof] at hi
    exact absurd hi.1 List.not_mem_nil
  · intro i hi
    rw [mem_ended, hom] at hi
    exact absurd hi.1 List.not_mem_nil
  · intro i hi
    rw [mem_ended, hof] at hi
    exact absurd hi.1 List.not_mem_nil

theorem parted_of_token {o : Owner} {p : Nat} {t : TokenTree} {f : FieldMachine}
    {m : MethodMachine} {us vs : List Use} (h : Abreast o.language f us m vs)
    (hvs : ∀ v ∈ vs, v.place < p) (ht : t.kind ≠ .comment) :
    Parted o.language o p t ⟨field f, us⟩ ⟨method m, vs⟩ := by
  obtain ⟨f', us', hf', hfo⟩ := fieldOffer_of_offer p us h.fieldWaits ht
  obtain ⟨m', vs', hm', hmo⟩ := methodOffer_of_offer p vs h.methodWaits ht
  refine ⟨Or.inl ⟨f', m', by rw [hf'], by rw [hm'], ?_⟩, ?_, ?_, ?_⟩
  · rw [hf', hm']
    exact h.step hfo hmo (by rw [hm'])
  · intro i hi _
    rw [hm']
    exact h.fine_field hvs hfo hmo (mem_ended.1 hi).1 (Or.inl rfl)
  · intro i hi _
    rw [hf']
    exact h.fine_method hvs hfo hmo rfl (mem_ended.1 hi).1
  · intro i hi j hj
    exact h.fine_field hvs hfo hmo (mem_ended.1 hi).1 (Or.inr (mem_ended.1 hj).1)

/-- What any pair of machines makes of a token. -/
theorem parted_of_beside {o : Owner} {p : Nat} {t : TokenTree} {w w' : Tracked}
    (h : Beside o.language w w') (hw : w.Steady p) (hw' : w'.Steady p) :
    Parted o.language o p t w w' := by
  have hnamed := named_offer o p t w hw.named
  have hnamed' := named_offer o p t w' hw'.named
  rcases h with ⟨f, m, hf, hm, habreast⟩ | hlax | hlax
  · obtain ⟨e, us⟩ := w
    obtain ⟨e', vs⟩ := w'
    obtain rfl : e = field f := hf
    obtain rfl : e' = method m := hm
    by_cases ht : t.kind = .comment
    · exact parted_of_comment habreast ht
    · exact parted_of_token habreast hw'.below ht
  · have hitem : ∀ i ∈ w.ended o p t, ∀ j : Item, i.Fine j := by
      intro i hi j
      obtain ⟨hi, hmember⟩ := mem_ended.1 hi
      exact Item.fine_of_not_strict hlax hmember (hnamed.items i hi).1 (hnamed.items i hi).2
    refine ⟨Or.inr (Or.inl ?_), fun i hi _ => hitem i hi _, ?_, fun i hi j _ => hitem i hi j⟩
    · rw [isStrict_of_name hnamed.machine]
      exact hlax
    · intro i _ hmember
      exact (Item.fine_of_not_strict (i := (w.offer o p t).1.item) hlax hmember hnamed.machine
        hnamed.uses).symm
  · have hitem : ∀ i ∈ w'.ended o p t, ∀ j : Item, i.Fine j := by
      intro i hi j
      obtain ⟨hi, hmember⟩ := mem_ended.1 hi
      exact Item.fine_of_not_strict hlax hmember (hnamed'.items i hi).1 (hnamed'.items i hi).2
    refine ⟨Or.inr (Or.inr ?_), ?_, fun i hi _ => hitem i hi _, fun i _ j hj => (hitem j hj i).symm⟩
    · rw [isStrict_of_name hnamed'.machine]
      exact hlax
    · intro i _ hmember
      exact (Item.fine_of_not_strict (i := (w'.offer o p t).1.item) hlax hmember hnamed'.machine
        hnamed'.uses).symm

/-! ## Runs -/

/-- What holds of the machines and of the members that have ended in front of the place `p`. -/
structure Orderly (l : Language) (p : Nat) (ws : List Tracked) (items : List Item) : Prop where
  /-- Every machine has used tokens before the place. -/
  steady : ∀ w ∈ ws, w.Steady p
  /-- The machines read side by side. -/
  beside : ws.Pairwise (Beside l)
  /-- The members stand before the place. -/
  below : ∀ i ∈ items, ∀ u ∈ i.uses, u.place < p
  /-- Members meet loosely. -/
  fine : items.Pairwise Item.Fine
  /-- A member meets what is being read loosely. -/
  mixed : ∀ i ∈ items, ∀ w ∈ ws, w.item.isMember = true → i.Fine w.item

/-- Offers to the machines, one by one. -/
theorem offerAll_eq (o : Owner) (p : Nat) (t : TokenTree) (ws : List Tracked) :
    (Tracked.offerAll o p t ws).1 = ws.map (fun w => (w.offer o p t).1) ∧
      (Tracked.offerAll o p t ws).2.1 = ws.flatMap (fun w => (w.offer o p t).2.1) := by
  induction ws with
  | nil => exact ⟨rfl, rfl⟩
  | cons w ws ih =>
      refine ⟨?_, ?_⟩
      · rw [List.map_cons, ← ih.1]
        rfl
      · rw [List.flatMap_cons, ← ih.2]
        rfl

/-- A member that has ended does not meet a token behind it. -/
theorem Item.fine_of_extends {i j k : Item} {p : Nat} (h : i.Fine j)
    (hi : ∀ u ∈ i.uses, u.place < p) (hk : Extends p j.uses k.uses) (hj : j.isEarlyField = false) :
    i.Fine k := by
  rintro ⟨q, hqi, hqk⟩
  obtain ⟨u, hu, rfl⟩ := mem_places.1 hqi
  obtain ⟨v, hv, hvu⟩ := mem_places.1 hqk
  have hup := hi u hu
  have hvj : v ∈ j.uses := (hk.mem hv).resolve_right (by omega)
  have hsub : ∀ x ∈ j.uses, x ∈ k.uses := by
    rcases hk with hk | hk
    · have := hk v hv
      omega
    · exact hk.1
  obtain ⟨q, hqi, hqj, hloose⟩ := h ⟨u.place, hqi, mem_places.2 ⟨v, hvj, hvu⟩⟩
  obtain ⟨x, hx, rfl⟩ := mem_places.1 hqj
  refine ⟨x.place, hqi, mem_places.2 ⟨x, hsub x hx, rfl⟩, hloose.imp id ?_⟩
  intro hq
  rw [loose, hj] at hq
  obtain ⟨y, hy, hyx⟩ := List.mem_map.1 hq
  obtain ⟨hy, hyl⟩ := List.mem_filter.1 hy
  rw [← hyx]
  exact mem_loose_of_mem (hsub y hy) hyl

theorem isEarlyField_item (w : Tracked) : w.item.isEarlyField = false := by
  unfold Item.isEarlyField Tracked.item
  split <;> rfl

theorem isMember_of_name {i j : Item} (h : i.machine.name = j.machine.name) :
    i.isMember = j.isMember := by
  rw [Item.isMember_eq, Item.isMember_eq]
  exact readsMembers_of_name h

/-- One token keeps the order. -/
theorem Orderly.step {o : Owner} {p : Nat} {ws : List Tracked} {items : List Item}
    (h : Orderly o.language p ws items) (t : TokenTree) :
    Orderly o.language (p + 1) (ws.map fun w => (w.offer o p t).1)
      (items ++ ws.flatMap (Tracked.ended o p t)) := by
  have hparted : ws.Pairwise (Parted o.language o p t) :=
    h.beside.imp_of_mem fun hw hw' hb => parted_of_beside hb (h.steady _ hw) (h.steady _ hw')
  have hspends : ∀ w ∈ ws, Spends p w.uses (w.offer o p t) :=
    fun w hw => spends_offer o t w (h.steady w hw).below
  have hnew : ∀ w ∈ ws, ∀ i ∈ w.ended o p t, ∀ u ∈ i.uses, u ∈ w.uses ∨ u.place = p := by
    intro w hw i hi u hu
    exact ((hspends w hw).items i (mem_ended.1 hi).1).2.mem hu
  -- a member that ends and any machine, its own among them
  have hmeet : ∀ w ∈ ws, ∀ w' ∈ ws, ∀ i ∈ w.ended o p t,
      (w'.offer o p t).1.item.isMember = true → i.Fine (w'.offer o p t).1.item := by
    intro w hw w' hw'
    let Meet (w w' : Tracked) : Prop :=
      (∀ i ∈ w.ended o p t, (w'.offer o p t).1.item.isMember = true →
        i.Fine (w'.offer o p t).1.item) ∧
      ∀ i ∈ w'.ended o p t, (w.offer o p t).1.item.isMember = true → i.Fine (w.offer o p t).1.item
    have : Std.Symm Meet := ⟨fun x y hxy => ⟨hxy.2, hxy.1⟩⟩
    have hall : ∀ x ∈ ws, ∀ y ∈ ws, Meet x y := by
      have hpair : ws.Pairwise Meet := hparted.imp fun hp => ⟨hp.left, hp.right⟩
      refine fun x hx y hy => List.Pairwise.forall_of_forall ?_ hpair hx hy
      intro x hx
      have hself : ∀ i ∈ x.ended o p t, i.Fine (x.offer o p t).1.item := fun i hi =>
        Item.fine_of_apart ((hspends x hx).fresh i (mem_ended.1 hi).1)
      exact ⟨fun i hi _ => hself i hi, fun i hi _ => hself i hi⟩
    exact (hall w hw w' hw').1
  -- a member that has ended before and a machine, before the token and after it
  have hold : ∀ i ∈ items, ∀ w ∈ ws, ∀ j : Item, j.machine.name = w.machine.name →
      j.isMember = true → Extends p w.uses j.uses → i.Fine j := by
    intro i hi w hw j hname hmember hj
    have hitem : w.item.isMember = true := by
      rw [← hmember]
      exact isMember_of_name hname.symm
    exact Item.fine_of_extends (h.mixed i hi w hw hitem) (h.below i hi) hj (isEarlyField_item w)
  have hnamed : ∀ w ∈ ws, Named w.machine.name (w.offer o p t) :=
    fun w hw => named_offer o p t w (h.steady w hw).named
  refine ⟨?_, ?_, ?_, ?_, ?_⟩
  · intro w' hw'
    obtain ⟨w, hw, rfl⟩ := List.mem_map.1 hw'
    exact (h.steady w hw).step
  · exact List.pairwise_map.2 (hparted.imp fun hp => hp.beside)
  · intro i hi u hu
    rcases List.mem_append.1 hi with hi | hi
    · have := h.below i hi u hu
      omega
    · obtain ⟨w, hw, hi⟩ := List.mem_flatMap.1 hi
      rcases hnew w hw i hi u hu with hu | hu
      · have := (h.steady w hw).below u hu
        omega
      · omega
  · refine List.pairwise_append.2 ⟨h.fine, List.pairwise_flatMap.2 ⟨?_, ?_⟩, ?_⟩
    · intro w hw
      exact ((hspends w hw).apart.imp fun hij => Item.fine_of_apart hij).filter _
    · exact hparted.imp fun hp => hp.both
    · intro i hi j hj
      obtain ⟨w, hw, hj⟩ := List.mem_flatMap.1 hj
      obtain ⟨hj, hmember⟩ := mem_ended.1 hj
      exact hold i hi w hw j ((hnamed w hw).items j hj).1 hmember ((hspends w hw).items j hj).2
  · intro i hi w' hw' hmember
    obtain ⟨w, hw, rfl⟩ := List.mem_map.1 hw'
    rcases List.mem_append.1 hi with hi | hi
    · exact hold i hi w hw _ (hnamed w hw).machine hmember (hspends w hw).keeps
    · obtain ⟨x, hx, hi⟩ := List.mem_flatMap.1 hi
      exact hmeet x hx w hw i hi hmember

end Extractor

end Outline

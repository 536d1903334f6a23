import Mathlib.Data.List.Infix
import Pinning.Proofs.Grammar

/-!
# How phrases begin and go on

Rules are put together from smaller ones: one after the other (`Chain`), one or the other
(`Either`), with something made of the tree (`Image`). What a phrase begins with, and what a whole
phrase can go on with, is then a finite matter of the kinds of tokens (`Shape`), and so is whether a
phrase of one rule is over where one of the next rule begins (`Apart`). Then the longest part of
some tokens that begins a phrase of both in turn is cut in one place (`Longest.chain_cases`). A rule
that occurs in itself has its shape up to phrases of any length, by what it is for shorter ones;
hence the bound in `Shaped`.
-/

namespace Pinning

variable {α β γ : Type}

inductive Token.Kind where
  | name
  | number
  | fixed (x : Terminal)
  | unknown
deriving DecidableEq

def Token.kind : Token α → Token.Kind
  | ident _ => .name
  | number _ => .number
  | mark m => .fixed (.mark m)
  | keyword k => .fixed (.keyword k)
  | unknown => .unknown

namespace Grammar

/-- Some phrase of the rule begins with these tokens. -/
def Begins (P : Rule α β) (ts : Phrase α) : Prop := ∃ us x, P (ts ++ us) x

inductive Chain (P : Rule α β) (Q : Rule α γ) : Rule α (β × γ)
  | mk {ts us : Phrase α} {x : β} {y : γ} (h : P ts x) (h' : Q us y) : Chain P Q (ts ++ us) (x, y)

inductive Either (P Q : Rule α β) : Rule α β
  | left {ts : Phrase α} {x : β} (h : P ts x) : Either P Q ts x
  | right {ts : Phrase α} {x : β} (h : Q ts x) : Either P Q ts x

/-- What is made of the trees of a rule and of the stretches of their phrases. -/
inductive Image (f : β → Span → γ) (P : Rule α β) : Rule α γ
  | mk {ts : Phrase α} {x : β} (h : P ts x) : Image f P ts (f x (extent ts))

/-- One token of which something can be made. -/
inductive Single (f : Spanned (Token α) → Option β) : Rule α β
  | mk {t : Spanned (Token α)} {x : β} (h : f t = some x) : Single f [t] x

/-- A token that is a fixed text. -/
inductive Text (v : Token α) : Rule α Unit
  | mk (s : Span) : Text v [⟨v, s⟩] ()

/-- What follows the first of several phrases with a mark between each two, and perhaps after the
last. -/
inductive Further (P : Rule α β) (between : Mark) (trailing : Bool) : Rule α (List β)
  | nil : Further P between trailing [] []
  | last (h : trailing) (s : Span) : Further P between trailing [⟨.mark between, s⟩] []
  | more (s : Span) {ts us : Phrase α} {x : β} {xs : List β} (h : P ts x)
    (hs : Further P between trailing us xs) :
    Further P between trailing (⟨.mark between, s⟩ :: (ts ++ us)) (x :: xs)

inductive Nothing (x : β) : Rule α β
  | mk : Nothing x [] x

theorem Chain.fst {P : Rule α β} {Q : Rule α γ} {ts us : Phrase α} {x : β} {y : γ} (h : P ts x)
    (h' : Q us y) : Image (fun x _ => x.1) (Chain P Q) (ts ++ us) x :=
  .mk (Chain.mk h h')

theorem Chain.snd {P : Rule α β} {Q : Rule α γ} {ts us : Phrase α} {x : β} {y : γ} (h : P ts x)
    (h' : Q us y) : Image (fun x _ => x.2) (Chain P Q) (ts ++ us) y :=
  .mk (Chain.mk h h')

section Repetition

/-- A list that is not there counts as one that is empty. -/
theorem Either.optional {P : Rule α (List β)} {ts : Phrase α} {o : Option (List β)}
    (h : Either (Image (fun x _ => some x) P) (Nothing none) ts o) : Optional P ts (o.getD []) := by
  rcases h with ⟨⟨h⟩⟩ | h
  · exact .present h
  · cases h
    exact .absent

theorem Optional.exists_either {P : Rule α (List β)} {ts : Phrase α} {xs : List β}
    (h : Optional P ts xs) :
    ∃ o, Either (Image (fun x _ => some x) P) (Nothing none) ts o ∧ o.getD [] = xs := by
  cases h with
  | absent => exact ⟨none, .right .mk, rfl⟩
  | present h => exact ⟨some xs, .left (.mk h), rfl⟩

variable {P : Rule α β} {m : Mark} {ts us : Phrase α} {x : β} {xs : List β}

theorem Joined.exists_further (h : Joined P m ts xs) :
    ∃ us vs x ys, ts = us ++ vs ∧ xs = x :: ys ∧ P us x ∧ Further P m false vs ys := by
  induction h with
  | one h => exact ⟨_, [], _, [], (List.append_nil _).symm, rfl, h, .nil⟩
  | more h s hs ih =>
    obtain ⟨us, vs, x, ys, rfl, rfl, h', hf⟩ := ih
    exact ⟨_, _, _, _, rfl, rfl, h, .more s h' hf⟩

theorem Further.joined (hs : Further P m false us xs) (h : P ts x) :
    Joined P m (ts ++ us) (x :: xs) := by
  induction hs generalizing ts x with
  | nil =>
    rw [List.append_nil]
    exact .one h
  | last htrailing => cases htrailing
  | more s h' hs ih => exact .more h s (ih h')

/-- The mark after the last phrase is all that may be more. -/
theorem further_trailing_iff : Further P m true us xs ↔ Further P m false us xs
    ∨ ∃ vs s, us = vs ++ [⟨.mark m, s⟩] ∧ Further P m false vs xs := by
  constructor
  · intro h
    induction h with
    | nil => exact .inl .nil
    | last _ s => exact .inr ⟨[], s, rfl, .nil⟩
    | more s h hs ih =>
      rcases ih with hf | ⟨vs, s', rfl, hf⟩
      · exact .inl (.more s h hf)
      · exact .inr ⟨_, s', by simp, .more s h hf⟩
  · rintro (h | ⟨vs, s, rfl, h⟩)
    · induction h with
      | nil => exact .nil
      | last htrailing => cases htrailing
      | more s h hs ih => exact .more s h ih
    · induction h with
      | nil => exact .last rfl s
      | last htrailing => cases htrailing
      | more s' h hs ih =>
        rw [List.cons_append, List.append_assoc]
        exact .more s' h ih

theorem further_iff : Further P m false ts xs ↔ Either (Image (fun x _ => x.2) (Chain
    (Text (.mark m)) (Image (fun x _ => x.1 :: x.2) (Chain P (Further P m false))))) (Nothing [])
      ts xs := by
  constructor
  · rintro (_ | htrailing | ⟨s, h, hs⟩)
    · exact .right .mk
    · cases htrailing
    · exact .left (Chain.snd (Text.mk s) (.mk (Chain.mk h hs)))
  · rintro (⟨⟨⟨s⟩, ⟨⟨h, hs⟩⟩⟩⟩ | hnil)
    · rw [List.singleton_append]
      exact .more s h hs
    · cases hnil
      exact .nil

theorem trailing_iff : Further P m true ts xs ↔ Either (Image (fun x _ => x.2) (Chain
    (Text (.mark m)) (Either (Image (fun x _ => x.1 :: x.2) (Chain P (Further P m true)))
      (Nothing [])))) (Nothing []) ts xs := by
  constructor
  · rintro (_ | ⟨-, s⟩ | ⟨s, h, hs⟩)
    · exact .right .mk
    · exact .left (Chain.snd (Text.mk s) (.right .mk))
    · exact .left (Chain.snd (Text.mk s) (.left (.mk (Chain.mk h hs))))
  · rintro (⟨⟨⟨s⟩, ⟨⟨h, hs⟩⟩ | hnil⟩⟩ | hnil)
    · rw [List.singleton_append]
      exact .more s h hs
    · cases hnil
      exact .last rfl s
    · cases hnil
      exact .nil

theorem joined_iff : Joined P m ts xs ↔
    Image (fun x _ => x.1 :: x.2) (Chain P (Further P m false)) ts xs := by
  constructor
  · intro h
    obtain ⟨us, vs, x, ys, rfl, rfl, hP, hs⟩ := h.exists_further
    exact .mk (Chain.mk hP hs)
  · rintro ⟨⟨h, hs⟩⟩
    exact hs.joined h

theorem listed_iff : Listed P ts xs ↔ Either
    (Image (fun x _ => x.1 :: x.2) (Chain P (Further P .comma true))) (Nothing []) ts xs := by
  constructor
  · rintro (_ | h | ⟨h, s⟩)
    · exact .right .mk
    · obtain ⟨us, vs, x, ys, rfl, rfl, hP, hs⟩ := h.exists_further
      exact .left (.mk (Chain.mk hP (further_trailing_iff.2 (.inl hs))))
    · obtain ⟨us, vs, x, ys, rfl, rfl, hP, hs⟩ := h.exists_further
      rw [List.append_assoc]
      exact .left (.mk (Chain.mk hP (further_trailing_iff.2 (.inr ⟨vs, s, rfl, hs⟩))))
  · rintro (⟨⟨h, hs⟩⟩ | hnil)
    · rcases further_trailing_iff.1 hs with hf | ⟨vs, s, rfl, hf⟩
      · exact .plain (hf.joined h)
      · rw [← List.append_assoc]
        exact .trailing (hf.joined h) s
    · cases hnil
      exact .empty

end Repetition

/-- Two cuts of the same tokens are one, or one of them is further on. -/
theorem cut_cases {us us' vs vs' : Phrase α} (h : us ++ vs = us' ++ vs') :
    us = us' ∧ vs = vs' ∨ (∃ c cs, us' = us ++ c :: cs ∧ vs = c :: cs ++ vs')
      ∨ ∃ c cs, us = us' ++ c :: cs ∧ vs' = c :: cs ++ vs := by
  rcases List.append_eq_append_iff.1 h with ⟨cs, rfl, rfl⟩ | ⟨cs, rfl, rfl⟩ <;> cases cs with
  | nil => exact .inl ⟨by rw [List.append_nil], rfl⟩
  | cons c cs => simp

section Begins

variable {P : Rule α β} {Q : Rule α γ} {ts us : Phrase α} {x : β}

theorem Begins.of_phrase (h : P ts x) : Begins P ts := ⟨[], x, by rwa [List.append_nil]⟩

theorem Begins.of_append (h : Begins P (ts ++ us)) : Begins P ts := by
  obtain ⟨vs, x, h⟩ := h
  exact ⟨us ++ vs, x, by rwa [← List.append_assoc]⟩

theorem Begins.of_cons {t : Spanned (Token α)} (h : Begins P (ts ++ t :: us)) :
    Begins P (ts ++ [t]) := by
  rw [List.append_cons] at h
  exact h.of_append

theorem Begins.head {t : Spanned (Token α)} (h : Begins P (t :: us)) : Begins P [t] := by
  have h' : Begins P ([] ++ t :: us) := h
  exact h'.of_cons

/-- What begins two rules in turn is part of a phrase of the first, or goes on in the second. -/
theorem Begins.chain_cases (h : Begins (Chain P Q) ts) :
    Begins P ts ∨ ∃ us v vs x, ts = us ++ v :: vs ∧ P us x ∧ Begins Q (v :: vs) := by
  obtain ⟨ws, xy, h⟩ := h
  generalize hts : ts ++ ws = all at h
  cases h with
  | @mk us vs x y h h' =>
    rcases cut_cases hts with ⟨rfl, -⟩ | ⟨c, cs, rfl, -⟩ | ⟨c, cs, rfl, rfl⟩
    · exact .inl (.of_phrase h)
    · exact .inl ⟨c :: cs, x, h⟩
    · exact .inr ⟨us, c, cs, x, rfl, h, ws, y, h'⟩

theorem Begins.chain_left (h : Begins P ts) (hQ : Begins Q []) : Begins (Chain P Q) ts := by
  obtain ⟨us, x, h⟩ := h
  obtain ⟨vs, y, hQ⟩ := hQ
  exact ⟨us ++ vs, (x, y), by simpa using Chain.mk h hQ⟩

theorem Begins.chain_right (h : P ts x) (hQ : Begins Q us) : Begins (Chain P Q) (ts ++ us) := by
  obtain ⟨vs, y, hQ⟩ := hQ
  exact ⟨vs, (x, y), by simpa using Chain.mk h hQ⟩

theorem begins_either {P Q : Rule α β} : Begins (Either P Q) ts ↔ Begins P ts ∨ Begins Q ts := by
  constructor
  · rintro ⟨us, x, h | h⟩
    · exact .inl ⟨us, x, h⟩
    · exact .inr ⟨us, x, h⟩
  · rintro (⟨us, x, h⟩ | ⟨us, x, h⟩)
    · exact ⟨us, x, .left h⟩
    · exact ⟨us, x, .right h⟩

theorem begins_image {f : β → Span → γ} : Begins (Image f P) ts ↔ Begins P ts := by
  constructor
  · rintro ⟨us, _, ⟨h⟩⟩
    exact ⟨us, _, h⟩
  · rintro ⟨us, x, h⟩
    exact ⟨us, _, .mk h⟩

theorem begins_nothing {x : β} : Begins (Nothing x) ts ↔ ts = [] := by
  constructor
  · rintro ⟨us, y, h⟩
    generalize hts : ts ++ us = all at h
    cases h
    exact (List.append_eq_nil_iff.1 hts).1
  · rintro rfl
    exact .of_phrase .mk

theorem begins_single {f : Spanned (Token α) → Option β} {t : Spanned (Token α)} :
    Begins (Single f) (t :: ts) ↔ ts = [] ∧ (f t).isSome := by
  constructor
  · rintro ⟨us, x, h⟩
    generalize hts : t :: ts ++ us = all at h
    cases h with
    | mk h =>
      obtain ⟨rfl, hnil⟩ := List.cons.inj hts
      exact ⟨(List.append_eq_nil_iff.1 hnil).1, Option.isSome_iff_exists.2 ⟨x, h⟩⟩
  · rintro ⟨rfl, h⟩
    obtain ⟨x, h⟩ := Option.isSome_iff_exists.1 h
    exact .of_phrase (.mk h)

end Begins

/-- No phrase of the first rule, of these lengths, goes on with a token that begins the second. -/
def Apart (n : ℕ) (P : Rule α β) (Q : Rule α γ) : Prop :=
  ∀ us x t, us.length < n → P us x → Begins P (us ++ [t]) → ¬Begins Q [t]

namespace Apart

variable {n : ℕ} {P : Rule α β} {Q : Rule α γ} {us us' vs vs' : Phrase α} {x x' : β}
  {v v' : Spanned (Token α)}

theorem not_begins (h : Apart n P Q) (hn : us.length < n) (hP : P us x)
    (hQ : Begins Q (v :: vs)) : ¬Begins P (us ++ v :: vs') :=
  fun hv => h us x v hn hP hv.of_cons hQ.head

/-- So there is one place where the first rule is over and the second one goes on. -/
theorem eq_of_append (h : Apart n P Q) (hn : us.length < n) (hn' : us'.length < n)
    (hP : P us x) (hP' : P us' x') (hQ : Begins Q [v]) (hQ' : Begins Q [v'])
    (heq : us ++ v :: vs = us' ++ v' :: vs') : us = us' := by
  rcases cut_cases heq with ⟨rfl, -⟩ | ⟨c, cs, rfl, hcs⟩ | ⟨c, cs, rfl, hcs⟩
  · rfl
  · obtain ⟨rfl, -⟩ := List.cons.inj hcs
    exact absurd (Begins.of_phrase hP') (h.not_begins hn hP hQ)
  · obtain ⟨rfl, -⟩ := List.cons.inj hcs
    exact absurd (Begins.of_phrase hP) (h.not_begins hn' hP' hQ')

/-- The same, where the second rule goes on with the last token or does not. -/
theorem eq_of_append_concat (h : Apart n P Q) (hn : us.length < n) (hn' : us'.length < n)
    (hP : P us x) (hP' : P us' x') (hQ : Begins Q vs) (hQ' : Begins Q (v' :: vs'))
    (heq : us ++ (vs ++ [v]) = us' ++ v' :: vs') : us = us' := by
  cases vs with
  | cons w ws => exact h.eq_of_append hn hn' hP hP' hQ.head hQ'.head heq
  | nil =>
    rcases cut_cases heq with ⟨rfl, -⟩ | ⟨c, cs, rfl, hcs⟩ | ⟨c, cs, rfl, hcs⟩
    · rfl
    · simp at hcs
    · obtain ⟨rfl, -⟩ := List.cons.inj hcs
      exact absurd (Begins.of_phrase hP) (h.not_begins hn' hP' hQ')

/-- Where the first rule is not over, neither are both in turn. -/
theorem not_chain (h : Apart n P Q) (hn : us.length < n) (hb : Begins P us) (hno : ¬∃ x, P us x)
    (xy : β × γ) : ¬Chain P Q us xy := by
  rintro @⟨us, vs, x, y, hP, hQ⟩
  cases vs with
  | nil =>
    rw [List.append_nil] at hno
    exact hno ⟨x, hP⟩
  | cons v vs =>
    rw [List.length_append] at hn
    exact h.not_begins (by omega) hP (.of_phrase hQ) hb

/-- Where the first rule is not over, both in turn go on as it does. -/
theorem begins_of_chain (h : Apart n P Q) (hn : us.length < n) (hb : Begins P us)
    (hno : ¬∃ x, P us x) (hv : Begins (Chain P Q) (us ++ [v])) : Begins P (us ++ [v]) := by
  rcases hv.chain_cases with hv | ⟨us', w, ws, x, heq, hP, hQ⟩
  · exact hv
  · rcases cut_cases heq with ⟨rfl, -⟩ | ⟨c, cs, rfl, hcs⟩ | ⟨c, cs, rfl, hcs⟩
    · exact absurd ⟨x, hP⟩ hno
    · simp at hcs
    · obtain ⟨rfl, -⟩ := List.cons.inj hcs
      rw [List.length_append] at hn
      exact absurd hb (h.not_begins (by omega) hP hQ)

end Apart

/-- The longest first part of some tokens that begins a phrase of the rule, and what is left. -/
structure Longest (P : Rule α β) (pre post : Phrase α) : Prop where
  begins : Begins P pre
  stops : ∀ t ∈ post.head?, ¬Begins P (pre ++ [t])

namespace Longest

variable {n : ℕ} {P : Rule α β} {Q : Rule α γ} {pre post us vs rest : Phrase α} {x : β}
  {t : Spanned (Token α)}

/-- What else begins a phrase is part of it. -/
theorem exists_append (h : Longest P pre post) (hus : Begins P us)
    (heq : pre ++ post = us ++ rest) : ∃ vs, pre = us ++ vs ∧ rest = vs ++ post := by
  rcases cut_cases heq with ⟨rfl, rfl⟩ | ⟨c, cs, rfl, rfl⟩ | ⟨c, cs, rfl, rfl⟩
  · exact ⟨[], (List.append_nil _).symm, rfl⟩
  · exact absurd hus.of_cons (h.stops c rfl)
  · exact ⟨c :: cs, rfl, rfl⟩

/-- A token of which nothing can be made begins nothing, and one that can be taken is all. -/
theorem pre_eq_nil {f : Spanned (Token α) → Option β} (h : Longest (Single f) pre post)
    (ht : f t = none) (heq : t :: us = pre ++ post) : pre = [] := by
  cases pre with
  | nil => rfl
  | cons v pre =>
    obtain ⟨rfl, -⟩ := List.cons.inj heq
    have hb := h.begins
    rw [begins_single, ht] at hb
    cases hb.2

theorem pre_eq_singleton {f : Spanned (Token α) → Option β} (h : Longest (Single f) pre post)
    (ht : (f t).isSome) (heq : t :: us = pre ++ post) : pre = [t] ∧ post = us := by
  cases pre with
  | nil =>
    obtain rfl : t :: us = post := heq
    exact absurd (begins_single.2 ⟨rfl, ht⟩) (h.stops t rfl)
  | cons v pre =>
    obtain ⟨rfl, hus⟩ := List.cons.inj heq
    obtain rfl := (begins_single.1 h.begins).1
    exact ⟨rfl, hus.symm⟩

theorem of_imp (h : Longest P pre post) (hQ : Begins Q pre)
    (hPQ : ∀ t, Begins Q (pre ++ [t]) → Begins P (pre ++ [t])) : Longest Q pre post :=
  ⟨hQ, fun t ht hb => h.stops t ht (hPQ t hb)⟩

/-- Two rules in turn get furthest with the first one over and the second one as far as it goes, or
with the first one still going on. -/
theorem chain_cases (hlong : Longest (Chain P Q) pre post) (hn : pre.length < n)
    (hapart : Apart n P Q) (hQ : Begins Q []) :
    (∃ us vs x, pre = us ++ vs ∧ P us x ∧ Longest P us (vs ++ post) ∧ Longest Q vs post)
      ∨ Longest P pre post ∧ (∀ xy, ¬Chain P Q pre xy)
        ∧ ∀ t, Begins (Chain P Q) (pre ++ [t]) → Begins P (pre ++ [t]) := by
  rcases hlong.begins.chain_cases with hb | ⟨us, v, vs, x, rfl, hP, hvs⟩
  · have hlongP : Longest P pre post := hlong.of_imp hb fun _ h => h.chain_left hQ
    by_cases hx : ∃ x, P pre x
    · obtain ⟨x, hP⟩ := hx
      refine .inl ⟨pre, [], x, (List.append_nil _).symm, hP, hlongP, hQ, fun t ht h => ?_⟩
      exact hlong.stops t ht (.chain_right hP h)
    · exact .inr ⟨hlongP, hapart.not_chain hn hb hx, fun t => hapart.begins_of_chain hn hb hx⟩
  · rw [List.length_append] at hn
    refine .inl ⟨us, v :: vs, x, rfl, hP, ⟨.of_phrase hP, ?_⟩, hvs, fun t ht h => ?_⟩
    · rintro _ ⟨⟩
      exact hapart.not_begins (by omega) hP hvs
    · refine hlong.stops t ht ?_
      rw [List.append_assoc]
      exact .chain_right hP h

/-- Where the first rule is over is where every phrase is cut. -/
theorem of_chain (hlong : Longest P us (vs ++ post)) (hn : us.length < n) (hapart : Apart n P Q)
    {xy : β × γ} (h : Chain P Q (us ++ vs) xy) : P us xy.1 ∧ Q vs xy.2 := by
  generalize hts : us ++ vs = ts at h
  cases h with
  | @mk us' vs' x y hP hQ =>
    have heq : us ++ (vs ++ post) = us' ++ (vs' ++ post) := by
      rw [← List.append_assoc, hts, List.append_assoc]
    obtain ⟨ws, rfl, -⟩ := hlong.exists_append (.of_phrase hP) heq
    rw [List.append_assoc, List.append_cancel_left_eq] at hts
    subst hts
    cases ws with
    | nil =>
      rw [List.append_nil]
      exact ⟨hP, hQ⟩
    | cons w ws =>
      rw [List.length_append] at hn
      exact absurd hlong.begins (hapart.not_begins (by omega) hP (.of_phrase hQ))

theorem begins_of_chain (hlong : Longest P us (vs ++ post)) (hn : us.length < n)
    (hapart : Apart n P Q) (hP : P us x) (h : Begins (Chain P Q) (us ++ vs ++ [t])) :
    Begins Q (vs ++ [t]) ∨ vs = [] ∧ Begins P (us ++ [t]) := by
  rw [List.append_assoc] at h
  rcases h.chain_cases with hb | ⟨us', v, vs', x', heq, hP', hvs'⟩
  · cases vs with
    | nil => exact .inr ⟨rfl, hb⟩
    | cons w ws => exact absurd hb.of_cons (hlong.stops w rfl)
  · rcases cut_cases heq with ⟨rfl, hcs⟩ | ⟨c, cs, rfl, hcs⟩ | ⟨c, cs, rfl, hcs⟩
    · rw [hcs]
      exact .inl hvs'
    · cases vs with
      | nil => simp at hcs
      | cons w ws =>
        obtain ⟨rfl, -⟩ := List.cons.inj hcs
        exact absurd (Begins.of_phrase hP').of_cons (hlong.stops w rfl)
    · obtain ⟨rfl, -⟩ := List.cons.inj hcs
      rw [List.length_append] at hn
      exact absurd (Begins.of_phrase hP) (hapart.not_begins (by omega) hP' hvs')

end Longest

/-- What kinds of tokens a rule's phrases begin with, and what a whole phrase can go on with. -/
structure Shape where
  /-- Whether the empty phrase may be one. -/
  empty : Bool
  first : List Token.Kind
  next : List Token.Kind

namespace Shape

def chain (σ τ : Shape) : Shape where
  empty := σ.empty && τ.empty
  first := σ.first ++ if σ.empty then τ.first else []
  next := τ.next ++ if τ.empty then σ.next else []

def either (σ τ : Shape) : Shape where
  empty := σ.empty || τ.empty
  first := σ.first ++ τ.first
  next := σ.next ++ τ.next

def optional (σ : Shape) : Shape where
  empty := true
  first := σ.first
  next := σ.next ++ σ.first

def further (σ : Shape) (between : Mark) (trailing : Bool) : Shape where
  empty := true
  first := [.fixed (.mark between)]
  next := σ.next ++ .fixed (.mark between) :: if trailing then σ.first else []

def single (k : Token.Kind) : Shape where
  empty := false
  first := [k]
  next := []

theorem notMem_first_further {σ : Shape} {m : Mark} (hm : .fixed (.mark m) ∉ σ.next)
    (trailing : Bool) : ∀ k ∈ σ.next, k ∉ (σ.further m trailing).first :=
  fun _ hk hf => hm (List.mem_singleton.1 hf ▸ hk)

/-- The second shape allows what the first one does. -/
def Within (σ τ : Shape) : Prop :=
  (σ.empty → τ.empty) ∧ σ.first ⊆ τ.first ∧ σ.next ⊆ τ.next

instance (σ τ : Shape) : Decidable (σ.Within τ) := inferInstanceAs (Decidable (_ ∧ _ ∧ _))

end Shape

/-- A rule has this shape, as far as it concerns what goes on with phrases of these lengths. -/
structure Shaped (n : ℕ) (P : Rule α β) (σ : Shape) : Prop where
  inhabited : ∃ ts x, P ts x
  empty {x : β} : P [] x → σ.empty = true
  first {t : Spanned (Token α)} : Begins P [t] → t.value.kind ∈ σ.first
  next {us : Phrase α} {x : β} {t : Spanned (Token α)} : us.length < n → P us x →
    Begins P (us ++ [t]) → t.value.kind ∈ σ.next

namespace Shaped

variable {n m k : ℕ} {P : Rule α β} {Q : Rule α γ} {σ τ : Shape}

theorem begins (h : Shaped n P σ) : Begins P [] := by
  obtain ⟨ts, x, h⟩ := h.inhabited
  exact ⟨ts, x, h⟩

theorem ne_nil (h : Shaped n P σ) (hσ : σ.empty = false) {ts : Phrase α} {x : β} (hP : P ts x) :
    ts ≠ [] := by
  rintro rfl
  rw [h.empty hP] at hσ
  cases hσ

theorem mono (h : Shaped n P σ) (hm : m ≤ n) : Shaped m P σ :=
  { h with next := fun hus => h.next (hus.trans_le hm) }

theorem within (h : Shaped n P σ) (hτ : σ.Within τ) : Shaped n P τ where
  inhabited := h.inhabited
  empty hP := hτ.1 (h.empty hP)
  first ht := hτ.2.1 (h.first ht)
  next hus hP ht := hτ.2.2 (h.next hus hP ht)

theorem apart (h : Shaped n P σ) (h' : Shaped m Q τ) (hd : ∀ k ∈ σ.next, k ∉ τ.first) :
    Apart n P Q :=
  fun _ _ _ hus hP ht ht' => hd _ (h.next hus hP ht) (h'.first ht')

/-- Behind a phrase that is not empty there are fewer tokens. -/
theorem length_lt (h : Shaped n P σ) (hm : k ≤ m ∨ σ.empty = false ∧ k ≤ m + 1) {us vs : Phrase α}
    {x : β} (hP : P us x) (hlt : (us ++ vs).length < k) : vs.length < m := by
  rw [List.length_append] at hlt
  rcases hm with hm | ⟨hσ, hm⟩
  · omega
  · have := List.length_pos_iff.2 (h.ne_nil hσ hP)
    omega

theorem chain (h : Shaped n P σ) (h' : Shaped m Q τ) (hm : n ≤ m ∨ σ.empty = false ∧ n ≤ m + 1)
    (hd : ∀ k ∈ σ.next, k ∉ τ.first) : Shaped n (Chain P Q) (σ.chain τ) where
  inhabited := by
    obtain ⟨ts, x, hP⟩ := h.inhabited
    obtain ⟨us, y, hQ⟩ := h'.inhabited
    exact ⟨_, _, .mk hP hQ⟩
  empty {xy} hxy := by
    generalize hnil : ([] : Phrase α) = all at hxy
    cases hxy with
    | mk hP hQ =>
      obtain ⟨rfl, rfl⟩ := List.append_eq_nil_iff.1 hnil.symm
      rw [Shape.chain, h.empty hP, h'.empty hQ]
      rfl
  first {t} ht := by
    rcases ht.chain_cases with ht | ⟨us, v, vs, x, heq, hP, hQ⟩
    · exact List.mem_append_left _ (h.first ht)
    · obtain ⟨rfl, heq⟩ := List.append_eq_singleton_iff.1 heq.symm |>.resolve_right (by simp)
      obtain ⟨rfl, rfl⟩ := List.cons.inj heq
      rw [Shape.chain, h.empty hP, if_pos rfl]
      exact List.mem_append_right _ (h'.first hQ)
  next {ts xy t} hts hxy ht := by
    cases hxy with
    | @mk us vs x y hP hQ =>
      have hus : us.length < n := (Nat.le_add_right _ _).trans_lt (List.length_append ▸ hts)
      have hvs : vs.length < m := h.length_lt hm hP hts
      have hapart := h.apart h' hd
      rw [List.append_assoc] at ht
      rcases ht.chain_cases with ht | ⟨us', v, vs', x', heq, hP', hQ'⟩
      · cases vs with
        | nil =>
          rw [Shape.chain, h'.empty hQ, if_pos rfl]
          exact List.mem_append_right _ (h.next hus hP ht)
        | cons v vs => exact absurd ht (hapart.not_begins hus hP (.of_phrase hQ))
      · have hus' : us'.length < n := by
          have := congrArg List.length heq
          simp only [List.length_append, List.length_cons, List.length_nil] at this hts
          omega
        obtain rfl := hapart.eq_of_append_concat hus hus' hP hP' (.of_phrase hQ) hQ' heq
        obtain heq := List.append_cancel_left heq
        rw [← heq] at hQ'
        exact List.mem_append_left _ (h'.next hvs hQ hQ')

/-- A phrase of the one rule may also go on as one of the other. -/
theorem either {Q : Rule α β} (h : Shaped n P σ) (h' : Shaped n Q τ)
    (hPQ : ∀ us x t, P us x → Begins Q (us ++ [t]) → t.value.kind ∈ (σ.either τ).next)
    (hQP : ∀ us x t, Q us x → Begins P (us ++ [t]) → t.value.kind ∈ (σ.either τ).next) :
    Shaped n (Either P Q) (σ.either τ) where
  inhabited := by
    obtain ⟨ts, x, hP⟩ := h.inhabited
    exact ⟨ts, x, .left hP⟩
  empty hx := by
    cases hx with
    | left hP => rw [Shape.either, h.empty hP, Bool.true_or]
    | right hQ => rw [Shape.either, h'.empty hQ, Bool.or_true]
  first ht := by
    rcases begins_either.1 ht with ht | ht
    · exact List.mem_append_left _ (h.first ht)
    · exact List.mem_append_right _ (h'.first ht)
  next hus hx ht := by
    cases hx with
    | left hP =>
      rcases begins_either.1 ht with ht | ht
      · exact List.mem_append_left _ (h.next hus hP ht)
      · exact hPQ _ _ _ hP ht
    | right hQ =>
      rcases begins_either.1 ht with ht | ht
      · exact hQP _ _ _ hQ ht
      · exact List.mem_append_right _ (h'.next hus hQ ht)

theorem optional {x : β} (h : Shaped n P σ) : Shaped n (Either P (Nothing x)) σ.optional where
  inhabited := ⟨[], x, .right .mk⟩
  empty _ := rfl
  first ht := by
    rcases begins_either.1 ht with ht | ht
    · exact h.first ht
    · cases begins_nothing.1 ht
  next hus hx ht := by
    rcases begins_either.1 ht with ht | ht
    · cases hx with
      | left hP => exact List.mem_append_left _ (h.next hus hP ht)
      | right hQ =>
        cases hQ
        exact List.mem_append_right _ (h.first ht)
    · cases List.append_eq_nil_iff.1 (begins_nothing.1 ht) |>.2

theorem image {f : β → Span → γ} (h : Shaped n P σ) : Shaped n (Image f P) σ where
  inhabited := by
    obtain ⟨ts, x, hP⟩ := h.inhabited
    exact ⟨ts, _, .mk hP⟩
  empty hx := by
    generalize hnil : ([] : Phrase α) = all at hx
    cases hx with
    | mk hP =>
      subst hnil
      exact h.empty hP
  first ht := h.first (begins_image.1 ht)
  next hus hx ht := by
    cases hx with
    | mk hP => exact h.next hus hP (begins_image.1 ht)

theorem single {f : Spanned (Token α) → Option β} {k : Token.Kind} (h : ∃ t, (f t).isSome)
    (hk : ∀ t, (f t).isSome → t.value.kind = k) : Shaped n (Single f) (.single k) where
  inhabited := by
    obtain ⟨t, ht⟩ := h
    obtain ⟨x, hx⟩ := Option.isSome_iff_exists.1 ht
    exact ⟨[t], x, .mk hx⟩
  empty hx := by cases hx
  first ht := List.mem_singleton.2 (hk _ (begins_single.1 ht).2)
  next _ hx ht := by
    cases hx with
    | mk h => cases (begins_single.1 ht).1

end Shaped

end Grammar

end Pinning

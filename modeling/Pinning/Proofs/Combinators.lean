import Pinning.Proofs.Shapes
import Pinning.Script.Descent

/-!
# Parsers that obey a rule

A parser obeys a rule on some tokens if it reads phrases of the rule only, and looks only for what
such phrases go on with; and if, at the furthest place that a phrase of the rule gets to, it has
read the phrase that ends there, and has looked for all that phrases go on with from there
(`Descent.Obeys`). It may stop earlier where no phrase ends at that place, and its failure tells of
the place all the same. Each combinator keeps this where the shapes of its rules allow
(`Descent.Reads`): the first of two alternatives must not read what the second one begins with, and
where one rule follows another the first must be over where the second begins.
-/

namespace Pinning

variable {α β γ : Type}

open Grammar

theorem Token.terminal?_ne_endOfInput (v : Token α) : v.terminal? ≠ some .endOfInput := by
  cases v <;> nofun

theorem Token.eq_of_terminal? {v w : Token α} {x : Terminal} (hv : v.terminal? = some x)
    (hw : w.terminal? = some x) : v = w := by
  cases v <;> cases hv <;> cases w <;> cases hw <;> rfl

namespace Descent

/-! ## Failures -/

@[simp] theorem furthest_none (e : Option Failure) : furthest e none = e := by cases e <;> rfl

@[simp] theorem none_furthest (e : Option Failure) : furthest none e = e := by cases e <;> rfl

theorem furthest_of_lt {f f' : Failure} (h : f.left < f'.left) :
    furthest (some f) (some f') = some f := congrArg some (if_pos h)

theorem furthest_of_gt {f f' : Failure} (h : f'.left < f.left) :
    furthest (some f) (some f') = some f' :=
  congrArg some ((if_neg h.le.not_gt).trans (if_pos h))

theorem furthest_of_eq {f f' : Failure} (h : f.left = f'.left) :
    furthest (some f) (some f') = some ⟨f.left, f.expected ++ f'.expected⟩ :=
  congrArg some ((if_neg h.not_lt).trans (if_neg h.symm.not_lt))

/-- Something was looked for with so many tokens left, this token among it if it can be listed. -/
def Meets (e : Option Failure) (left : ℕ) (v : Token α) : Prop :=
  ∃ f ∈ e, f.left = left ∧ ∀ x, v.terminal? = some x → x ∈ f.expected

/-- Only what phrases of the rule go on with was looked for. -/
def Tried (P : Rule α β) (ts : Phrase α) (e : Option Failure) : Prop :=
  ∀ f ∈ e, ∃ pre post, ts = pre ++ post ∧ post.length = f.left ∧ Begins P pre
    ∧ ∀ x ∈ f.expected, ∃ v : Token α, v.terminal? = some x ∧ ∀ s, Begins P (pre ++ [⟨v, s⟩])

section Failure

variable {P : Rule α β} {Q : Rule α γ} {ts us pre post : Phrase α} {e e' : Option Failure}
  {v : Token α}

theorem Tried.none : Tried P ts none := fun _ h => by cases h

theorem Tried.imp (h : Tried P ts e) (hPQ : ∀ us, Begins P us → Begins Q us) : Tried Q ts e := by
  intro f hf
  obtain ⟨pre, post, hts, hleft, hpre, hexpected⟩ := h f hf
  refine ⟨pre, post, hts, hleft, hPQ _ hpre, fun x hx => ?_⟩
  obtain ⟨v, hv, hb⟩ := hexpected x hx
  exact ⟨v, hv, fun s => hPQ _ (hb s)⟩

theorem Tried.append (h : Tried P ts e) (hPQ : ∀ vs, Begins P vs → Begins Q (us ++ vs)) :
    Tried Q (us ++ ts) e := by
  intro f hf
  obtain ⟨pre, post, rfl, hleft, hpre, hexpected⟩ := h f hf
  refine ⟨us ++ pre, post, (List.append_assoc ..).symm, hleft, hPQ _ hpre, fun x hx => ?_⟩
  obtain ⟨v, hv, hb⟩ := hexpected x hx
  refine ⟨v, hv, fun s => ?_⟩
  rw [List.append_assoc]
  exact hPQ _ (hb s)

theorem Tried.furthest (h : Tried P ts e) (h' : Tried P ts e') : Tried P ts (furthest e e') := by
  cases e with
  | none => rwa [none_furthest]
  | some f =>
    cases e' with
    | none => rwa [furthest_none]
    | some f' =>
      rintro _ ⟨⟩
      rw [Failure.merge]
      split_ifs with hlt hlt'
      · exact h f rfl
      · exact h' f' rfl
      · obtain ⟨pre, post, hts, hleft, hpre, hexpected⟩ := h f rfl
        obtain ⟨pre', post', hts', hleft', hpre', hexpected'⟩ := h' f' rfl
        have hpost : post.length = post'.length := by omega
        obtain ⟨rfl, rfl⟩ := List.append_inj' (hts.symm.trans hts') hpost
        refine ⟨pre, post, hts, hleft, hpre, fun x hx => ?_⟩
        rcases List.mem_append.1 hx with hx | hx
        · exact hexpected x hx
        · exact hexpected' x hx

/-- Nothing was looked for further on than phrases get. -/
theorem Tried.length_le (h : Tried P (pre ++ post) e) (hlong : Longest P pre post) :
    ∀ f ∈ e, post.length ≤ f.left := by
  intro f hf
  obtain ⟨pre', post', heq, hleft, hpre', -⟩ := h f hf
  obtain ⟨vs, -, rfl⟩ := hlong.exists_append hpre' heq
  rw [← hleft, List.length_append]
  omega

theorem Tried.endOfInput_notMem (h : Tried P ts e) {f : Failure} (hf : f ∈ e) :
    .endOfInput ∉ f.expected := by
  intro hx
  obtain ⟨pre, post, -, -, -, hexpected⟩ := h f hf
  obtain ⟨v, hv, -⟩ := hexpected _ hx
  exact v.terminal?_ne_endOfInput hv

theorem Meets.furthest_left (h : Meets e post.length v) (h' : Tried P (pre ++ post) e')
    (hlong : Longest P pre post) : Meets (furthest e e') post.length v := by
  obtain ⟨f, ⟨⟩, hleft, hexpected⟩ := h
  cases e' with
  | none =>
    rw [furthest_none]
    exact ⟨f, rfl, hleft, hexpected⟩
  | some f' =>
    have hle := h'.length_le hlong f' rfl
    refine ⟨f.merge f', rfl, ?_⟩
    rw [Failure.merge]
    split_ifs with hlt hlt'
    · exact ⟨hleft, hexpected⟩
    · omega
    · exact ⟨hleft, fun x hx => List.mem_append_left _ (hexpected x hx)⟩

theorem Meets.furthest_right (h : Meets e' post.length v) (h' : Tried P (pre ++ post) e)
    (hlong : Longest P pre post) : Meets (furthest e e') post.length v := by
  obtain ⟨f', ⟨⟩, hleft, hexpected⟩ := h
  cases e with
  | none =>
    rw [none_furthest]
    exact ⟨f', rfl, hleft, hexpected⟩
  | some f =>
    have hle := h'.length_le hlong f rfl
    refine ⟨f.merge f', rfl, ?_⟩
    rw [Failure.merge]
    split_ifs with hlt hlt'
    · omega
    · exact ⟨hleft, hexpected⟩
    · have hsame : f.left = post.length := by omega
      exact ⟨hsame, fun x hx => List.mem_append_right _ (hexpected x hx)⟩

end Failure

/-! ## Combinators -/

/-- What came of a parser on these tokens is as the rule has it. -/
structure Obeys (P : Rule α β) (ts : Phrase α) (a : Attempt α β) : Prop where
  sound {x : β} {rest : Phrase α} : a.result = some (x, rest) → ∃ us, ts = us ++ rest ∧ P us x
  tried : Tried P ts a.failure
  reads {pre post : Phrase α} {x : β} : ts = pre ++ post → Longest P pre post → P pre x →
    a.result = some (x, post)
  meets {pre post : Phrase α} {t : Spanned (Token α)} : ts = pre ++ post → Longest P pre post →
    Begins P (pre ++ [t]) → Meets a.failure post.length t.value

section Obeys

variable {n : ℕ} {P : Rule α β} {Q : Rule α γ} {ts : Phrase α} {p : Descent α β} {q : Descent α γ}

/-- What was looked for at the furthest place is what phrases of the rule go on with. -/
theorem Obeys.mem_expected_iff {a : Attempt α β} {pre post : Phrase α}
    (h : Obeys P (pre ++ post) a) (hlong : Longest P pre post) {f : Failure} (hf : f ∈ a.failure)
    (hleft : f.left = post.length) {v : Token α} {x : Terminal} (hx : v.terminal? = some x)
    (s : Span) : x ∈ f.expected ↔ Begins P (pre ++ [⟨v, s⟩]) := by
  constructor
  · intro hmem
    obtain ⟨pre', post', heq, hlength, -, hexpected⟩ := h.tried f hf
    obtain ⟨rfl, rfl⟩ := List.append_inj' heq (by rw [hlength, hleft])
    obtain ⟨w, hw, hb⟩ := hexpected x hmem
    obtain rfl := Token.eq_of_terminal? hw hx
    exact hb s
  · intro hb
    obtain ⟨f', hf', -, hexpected⟩ := h.meets rfl hlong hb
    obtain rfl := Option.mem_unique hf hf'
    exact hexpected x hx

/-- Where no phrase ends, it has been looked for what one goes on with. -/
theorem Obeys.exists_failure {a : Attempt α β} {pre post : Phrase α} (h : Obeys P (pre ++ post) a)
    (hlong : Longest P pre post) (hno : ¬∃ x, P pre x) : ∃ f ∈ a.failure, f.left = post.length := by
  obtain ⟨us, x, hP⟩ := hlong.begins
  cases us with
  | nil =>
    rw [List.append_nil] at hP
    exact absurd ⟨x, hP⟩ hno
  | cons u us =>
    obtain ⟨f, hf, hleft, -⟩ := h.meets rfl hlong (Begins.of_phrase hP).of_cons
    exact ⟨f, hf, hleft⟩

theorem obeys_success (x : β) (ts : Phrase α) : Obeys (Nothing x) ts (success x ts) where
  sound := by
    rintro _ _ ⟨⟩
    exact ⟨[], rfl, .mk⟩
  tried := .none
  reads := by
    rintro pre post y rfl - ⟨⟩
    rfl
  meets := by
    rintro pre post t rfl - ht
    cases List.append_eq_nil_iff.1 (begins_nothing.1 ht) |>.2

section Select

variable {f : Spanned (Token α) → Option β} {expected : List Terminal} {t : Spanned (Token α)}

theorem tried_select (h : ∃ t, (f t).isSome)
    (hlisted : ∀ x ∈ expected, ∃ v : Token α, v.terminal? = some x ∧ ∀ s, (f ⟨v, s⟩).isSome)
    (ts : Phrase α) : Tried (Single f) ts (some ⟨ts.length, expected⟩) := by
  obtain ⟨t, ht⟩ := h
  obtain ⟨y, hy⟩ := Option.isSome_iff_exists.1 ht
  rintro _ ⟨⟩
  refine ⟨[], ts, rfl, rfl, ⟨[t], y, .mk hy⟩, fun x hx => ?_⟩
  obtain ⟨v, hv, hs⟩ := hlisted x hx
  exact ⟨v, hv, fun s => begins_single.2 ⟨rfl, hs s⟩⟩

theorem obeys_select_of_some (ht : (f t).isSome) (ts : Phrase α) :
    Obeys (Single f) (t :: ts) (select expected f (t :: ts)) := by
  obtain ⟨x, hx⟩ := Option.isSome_iff_exists.1 ht
  rw [select, hx]
  refine ⟨?_, .none, fun heq hlong hP => ?_, fun heq hlong hv => ?_⟩
  · rintro _ _ ⟨⟩
    exact ⟨[t], rfl, .mk hx⟩
  · obtain ⟨rfl, rfl⟩ := hlong.pre_eq_singleton ht heq
    cases hP with
    | mk hP => rw [← hx, hP]
  · obtain ⟨rfl, rfl⟩ := hlong.pre_eq_singleton ht heq
    cases (begins_single.1 hv).1

theorem obeys_select (h : ∃ t, (f t).isSome)
    (hlisted : ∀ x ∈ expected, ∃ v : Token α, v.terminal? = some x ∧ ∀ s, (f ⟨v, s⟩).isSome)
    (hall : ∀ t, (f t).isSome → ∀ x, t.value.terminal? = some x → x ∈ expected) (ts : Phrase α) :
    Obeys (Single f) ts (select expected f ts) := by
  have htried := tried_select h hlisted ts
  have hmeets (t : Spanned (Token α)) (ht : (f t).isSome) :
      Meets (some ⟨ts.length, expected⟩) ts.length t.value := ⟨_, rfl, rfl, hall t ht⟩
  cases ts with
  | nil =>
    refine ⟨fun h => (by cases h), htried, fun heq _ hP => ?_, fun heq _ ht => ?_⟩
    · obtain ⟨rfl, rfl⟩ := List.append_eq_nil_iff.1 heq.symm
      cases hP
    · obtain ⟨rfl, rfl⟩ := List.append_eq_nil_iff.1 heq.symm
      exact hmeets _ (begins_single.1 ht).2
  | cons u us =>
    cases hu : f u with
    | some x => exact obeys_select_of_some (Option.isSome_iff_exists.2 ⟨x, hu⟩) us
    | none =>
      rw [select, hu]
      refine ⟨fun h => (by cases h), htried, fun heq hlong hP => ?_, fun heq hlong ht => ?_⟩
      · obtain rfl := hlong.pre_eq_nil hu heq
        cases hP
      · obtain rfl := hlong.pre_eq_nil hu heq
        obtain rfl : u :: us = _ := heq
        exact hmeets _ (begins_single.1 ht).2

end Select

theorem Obeys.mapWith (f : β → Span → γ) (h : Obeys P ts (p ts)) :
    Obeys (Image f P) ts (p.mapWith f ts) where
  sound hx := by
    obtain ⟨⟨y, rest⟩, hy, hx⟩ := Option.map_eq_some_iff.1 hx
    cases hx
    obtain ⟨us, rfl, hP⟩ := h.sound hy
    refine ⟨us, rfl, ?_⟩
    simp only [List.length_append, Nat.add_sub_cancel, List.take_left']
    exact .mk hP
  tried := h.tried.imp fun _ => begins_image.2
  reads := by
    rintro pre post _ rfl hlong ⟨hP⟩
    have hlong' : Longest P pre post :=
      hlong.of_imp (begins_image.1 hlong.begins) fun _ => begins_image.2
    simp only [Descent.mapWith, h.reads rfl hlong' hP, Option.map_some, List.length_append,
      Nat.add_sub_cancel, List.take_left']
  meets hts hlong ht :=
    h.meets hts (hlong.of_imp (begins_image.1 hlong.begins) fun _ => begins_image.2)
      (begins_image.1 ht)

theorem andThen_of_none (h : (p ts).result = none) :
    p.andThen q ts = ⟨none, (p ts).failure⟩ := by
  rw [Descent.andThen]
  split
  · rename_i e he
    rw [he]
  · rename_i he
    rw [he] at h
    cases h

theorem andThen_of_some {x : β} {rest : Phrase α} (h : (p ts).result = some (x, rest)) :
    p.andThen q ts = ⟨(q rest).result.map fun (y, rest) => ((x, y), rest),
      furthest (p ts).failure (q rest).failure⟩ := by
  rw [Descent.andThen]
  split
  · rename_i he
    rw [he] at h
    cases h
  · rename_i he
    rw [he] at h
    cases h
    rw [he]

section Chain

variable {a : Attempt α β} {b : Attempt α γ} {x : β} {rest : Phrase α}

theorem Obeys.chain_of_none (h : Obeys P ts a) (hn : ts.length < n) (hapart : Apart n P Q)
    (hQ : Begins Q []) (ha : a.result = none) : Obeys (Chain P Q) ts ⟨none, a.failure⟩ where
  sound hxy := by cases hxy
  tried := h.tried.imp fun _ hb => hb.chain_left hQ
  reads := by
    rintro pre post xy rfl hlong hxy
    rw [List.length_append] at hn
    rcases hlong.chain_cases (by omega) hapart hQ with ⟨us, vs, x, rfl, hP, hus, -⟩ | ⟨-, hno, -⟩
    · cases ha.symm.trans (h.reads (List.append_assoc ..) hus hP)
    · exact absurd hxy (hno xy)
  meets := by
    rintro pre post t rfl hlong ht
    rw [List.length_append] at hn
    rcases hlong.chain_cases (by omega) hapart hQ with ⟨us, vs, x, rfl, hP, hus, -⟩ | ⟨hP, -, hgo⟩
    · cases ha.symm.trans (h.reads (List.append_assoc ..) hus hP)
    · exact h.meets rfl hP (hgo t ht)

/-- The second parser is run behind a phrase of the first rule. -/
theorem Obeys.chain_of_some (h : Obeys P ts a) (hn : ts.length < n) (hapart : Apart n P Q)
    (hQ : Begins Q []) (ha : a.result = some (x, rest)) (h' : Obeys Q rest b) :
    Obeys (Chain P Q) ts
      ⟨b.result.map fun (y, rest) => ((x, y), rest), furthest a.failure b.failure⟩ := by
  obtain ⟨us, rfl, hP⟩ := h.sound ha
  have hfirst : Tried (Chain P Q) (us ++ rest) a.failure :=
    h.tried.imp fun _ hb => hb.chain_left hQ
  have hsecond : Tried (Chain P Q) (us ++ rest) b.failure :=
    h'.tried.append fun _ hb => hb.chain_right hP
  constructor
  · intro xy post hxy
    obtain ⟨⟨y, rest'⟩, hb, ⟨⟩⟩ := Option.map_eq_some_iff.1 hxy
    obtain ⟨vs, rfl, hQ⟩ := h'.sound hb
    exact ⟨us ++ vs, (List.append_assoc ..).symm, .mk hP hQ⟩
  · exact hfirst.furthest hsecond
  · intro pre post xy hts hlong hxy
    rw [hts, List.length_append] at hn
    rcases hlong.chain_cases (by omega) hapart hQ with ⟨us, vs, z, rfl, hz, hus, hvs⟩ | ⟨-, hno, -⟩
    · rw [List.length_append] at hn
      obtain ⟨hx, hy⟩ := hus.of_chain (by omega) hapart hxy
      cases ha.symm.trans (h.reads (hts.trans (List.append_assoc ..)) hus hx)
      rw [h'.reads rfl hvs hy]
      rfl
    · exact absurd hxy (hno xy)
  · intro pre post t hts hlong ht
    rw [hts] at hfirst hsecond
    rw [hts, List.length_append] at hn
    rcases hlong.chain_cases (by omega) hapart hQ with ⟨us, vs, z, rfl, hz, hus, hvs⟩ | ⟨hP, -, hgo⟩
    · have hts := hts.trans (List.append_assoc ..)
      rw [List.length_append] at hn
      cases ha.symm.trans (h.reads hts hus hz)
      rcases hus.begins_of_chain (by omega) hapart hz ht with hvt | ⟨rfl, hut⟩
      · exact (h'.meets rfl hvs hvt).furthest_right hfirst hlong
      · exact (h.meets hts hus hut).furthest_left hsecond hlong
    · exact (h.meets hts hP (hgo t ht)).furthest_left hsecond hlong

theorem Obeys.andThen (h : Obeys P ts (p ts))
    (h' : ∀ us rest x, ts = us ++ rest → P us x → Obeys Q rest (q rest)) (hn : ts.length < n)
    (hapart : Apart n P Q) (hQ : Begins Q []) : Obeys (Chain P Q) ts (p.andThen q ts) := by
  cases hp : (p ts).result with
  | none =>
    rw [andThen_of_none hp]
    exact h.chain_of_none hn hapart hQ hp
  | some r =>
    obtain ⟨us, hts, hP⟩ := h.sound hp
    rw [andThen_of_some hp]
    exact h.chain_of_some hn hapart hQ hp (h' us r.2 r.1 hts hP)

end Chain

section Either

variable {P Q : Rule α β} {p q : Descent α β}

theorem orElse_of_none (h : (p ts).result = none) :
    p.orElse q ts = ⟨(q ts).result, furthest (p ts).failure (q ts).failure⟩ := by
  rw [Descent.orElse]
  split
  · rename_i he
    rw [he] at h
    cases h
  · rename_i he
    rw [he]

theorem orElse_of_some {r : β × Phrase α} (h : (p ts).result = some r) :
    p.orElse q ts = p ts := by
  rw [Descent.orElse]
  split
  · rename_i he
    rw [he]
  · rename_i he
    rw [he] at h
    cases h

/-- The first of two alternatives counts where it reads nothing that the second could go on with. -/
theorem Obeys.either_of_some {a : Attempt α β} {x : β} {rest : Phrase α} (h : Obeys P ts a)
    (ha : a.result = some (x, rest)) (hPQ : ∀ us x, P us x → ¬Begins Q us) :
    Obeys (Either P Q) ts a := by
  obtain ⟨us, hts, hP⟩ := h.sound ha
  have hleft {us} (hb : Begins P us) : Begins (Either P Q) us := begins_either.2 (.inl hb)
  -- What is read is part of all that begins a phrase and gets further.
  have honly {pre post : Phrase α} (heq : ts = pre ++ post)
      (hlong : Longest (Either P Q) pre post) : ¬Begins Q pre := by
    obtain ⟨ws, rfl, -⟩ := hlong.exists_append (hleft (.of_phrase hP)) (heq.symm.trans hts)
    exact fun hb => hPQ us x hP hb.of_append
  have hlongP {pre post : Phrase α} (heq : ts = pre ++ post)
      (hlong : Longest (Either P Q) pre post) : Longest P pre post :=
    hlong.of_imp ((begins_either.1 hlong.begins).resolve_right (honly heq hlong)) fun _ => hleft
  constructor
  · intro y rest' hy
    obtain ⟨us, hts, hP⟩ := h.sound hy
    exact ⟨us, hts, .left hP⟩
  · exact h.tried.imp fun _ => hleft
  · rintro pre post y heq hlong (hy | hy)
    · exact h.reads heq (hlongP heq hlong) hy
    · exact absurd (.of_phrase hy) (honly heq hlong)
  · intro pre post t heq hlong ht
    have hnot : ¬Begins Q (pre ++ [t]) := fun hb => honly heq hlong hb.of_append
    exact h.meets heq (hlongP heq hlong) ((begins_either.1 ht).resolve_right hnot)

theorem Obeys.either_of_none {a b : Attempt α β} (h : Obeys P ts a) (h' : Obeys Q ts b)
    (ha : a.result = none) : Obeys (Either P Q) ts ⟨b.result, furthest a.failure b.failure⟩ := by
  have hleft {us} (hb : Begins P us) : Begins (Either P Q) us := begins_either.2 (.inl hb)
  have hright {us} (hb : Begins Q us) : Begins (Either P Q) us := begins_either.2 (.inr hb)
  have hfirst : Tried (Either P Q) ts a.failure := h.tried.imp fun _ => hleft
  have hsecond : Tried (Either P Q) ts b.failure := h'.tried.imp fun _ => hright
  have hlongP {pre post : Phrase α} (hlong : Longest (Either P Q) pre post) (hb : Begins P pre) :
      Longest P pre post := hlong.of_imp hb fun _ => hleft
  have hlongQ {pre post : Phrase α} (hlong : Longest (Either P Q) pre post) (hb : Begins Q pre) :
      Longest Q pre post := hlong.of_imp hb fun _ => hright
  constructor
  · intro y rest hy
    obtain ⟨us, hts, hQ⟩ := h'.sound hy
    exact ⟨us, hts, .right hQ⟩
  · exact hfirst.furthest hsecond
  · rintro pre post y heq hlong (hy | hy)
    · cases ha.symm.trans (h.reads heq (hlongP hlong (.of_phrase hy)) hy)
    · exact h'.reads heq (hlongQ hlong (.of_phrase hy)) hy
  · rintro pre post t rfl hlong ht
    rcases begins_either.1 ht with ht | ht
    · exact (h.meets rfl (hlongP hlong ht.of_append) ht).furthest_left hsecond hlong
    · exact (h'.meets rfl (hlongQ hlong ht.of_append) ht).furthest_right hfirst hlong

theorem Obeys.orElse (h : Obeys P ts (p ts)) (h' : Obeys Q ts (q ts))
    (hPQ : ∀ us x, P us x → ¬Begins Q us) : Obeys (Either P Q) ts (p.orElse q ts) := by
  cases hp : (p ts).result with
  | none =>
    rw [orElse_of_none hp]
    exact h.either_of_none h' hp
  | some r =>
    rw [orElse_of_some hp]
    exact h.either_of_some hp hPQ

end Either

end Obeys

theorem exists_repeated (p : Descent α β) (ts : Phrase α) :
    ∃ xs rest, (p.repeated ts).result = some (xs, rest) := by
  rw [Descent.repeated, Descent.recursive]
  generalize Descent.map _ _ = q
  cases hq : (q ts).result with
  | none =>
    rw [orElse_of_none hq]
    exact ⟨[], ts, rfl⟩
  | some r =>
    rw [orElse_of_some hq]
    exact ⟨r.1, r.2, hq⟩

/-- A parser obeys a rule of this shape on all tokens that are fewer than so many. -/
structure Reads (n : ℕ) (p : Descent α β) (P : Rule α β) (σ : Shape) : Prop
    extends Shaped n P σ where
  obeys {ts : Phrase α} : ts.length < n → Obeys P ts (p ts)

namespace Reads

variable {n m : ℕ} {p : Descent α β} {q : Descent α γ} {P : Rule α β} {Q : Rule α γ}
  {σ τ : Shape}

theorem mono (h : Reads n p P σ) (hm : m ≤ n) : Reads m p P σ :=
  ⟨h.toShaped.mono hm, fun hts => h.obeys (hts.trans_le hm)⟩

theorem within (h : Reads n p P σ) (hτ : σ.Within τ) : Reads n p P τ :=
  ⟨h.toShaped.within hτ, h.obeys⟩

theorem congr {Q : Rule α β} (h : Reads n p P σ) (hPQ : ∀ ts x, P ts x ↔ Q ts x) :
    Reads n p Q σ := by
  obtain rfl : P = Q := funext fun ts => funext fun x => propext (hPQ ts x)
  exact h

theorem mapWith (h : Reads n p P σ) (f : β → Span → γ) : Reads n (p.mapWith f) (Image f P) σ :=
  ⟨h.toShaped.image, fun hts => (h.obeys hts).mapWith f⟩

theorem map (h : Reads n p P σ) (f : β → γ) : Reads n (p.map f) (Image (fun x _ => f x) P) σ :=
  h.mapWith _

theorem andThen_of_le (h : Reads n p P σ) (h' : Reads m q Q τ)
    (hm : n ≤ m ∨ σ.empty = false ∧ n ≤ m + 1) (hd : ∀ k ∈ σ.next, k ∉ τ.first) :
    Reads n (p.andThen q) (Chain P Q) (σ.chain τ) where
  toShaped := h.toShaped.chain h'.toShaped hm hd
  obeys {ts} hts := by
    refine (h.obeys hts).andThen (fun us rest x heq hP => h'.obeys ?_) hts
      (h.toShaped.apart h'.toShaped hd) h'.begins
    exact h.toShaped.length_lt hm hP (heq ▸ hts)

theorem andThen (h : Reads n p P σ) (h' : Reads n q Q τ) (hd : ∀ k ∈ σ.next, k ∉ τ.first) :
    Reads n (p.andThen q) (Chain P Q) (σ.chain τ) := h.andThen_of_le h' (.inl le_rfl) hd

/-- Behind a token, the second parser is run on fewer of them. -/
theorem andThen_succ (h : Reads (n + 1) p P σ) (hσ : σ.empty = false) (h' : Reads n q Q τ)
    (hd : ∀ k ∈ σ.next, k ∉ τ.first) :
    Reads (n + 1) (p.andThen q) (Chain P Q) (σ.chain τ) :=
  h.andThen_of_le h' (.inr ⟨hσ, le_rfl⟩) hd

theorem orElse_of {Q : Rule α β} {q : Descent α β} (h : Reads n p P σ) (h' : Reads n q Q τ)
    (hfirst : ∀ us x, P us x → ¬Begins Q us)
    (hQP : ∀ us x t, Q us x → Begins P (us ++ [t]) → t.value.kind ∈ (σ.either τ).next) :
    Reads n (p.orElse q) (Either P Q) (σ.either τ) where
  toShaped := h.toShaped.either h'.toShaped
    (fun us x _ hP ht => absurd ht.of_append (hfirst us x hP)) hQP
  obeys hts := (h.obeys hts).orElse (h'.obeys hts) hfirst

/-- Where the first token settles it, the order of alternatives does not matter. -/
theorem orElse {Q : Rule α β} {q : Descent α β} (h : Reads n p P σ) (h' : Reads n q Q τ)
    (hσ : σ.empty = false) (hτ : τ.empty = false) (hd : ∀ k ∈ σ.first, k ∉ τ.first) :
    Reads n (p.orElse q) (Either P Q) (σ.either τ) := by
  have hpart {us : Phrase α} (hne : us ≠ []) (hP : Begins P us) : ¬Begins Q us := by
    obtain ⟨t, us, rfl⟩ := List.exists_cons_of_ne_nil hne
    exact fun hQ => hd _ (h.first hP.head) (h'.first hQ.head)
  refine h.orElse_of h' (fun us x hP => hpart (h.ne_nil hσ hP) (.of_phrase hP))
    fun us x t hQ ht => ?_
  exact absurd (.of_phrase hQ) (hpart (h'.ne_nil hτ hQ) ht.of_append)

theorem orSuccess (h : Reads n p P σ) (hσ : σ.empty = false) (x : β) :
    Reads n (p.orElse (success x)) (Either P (Nothing x)) σ.optional where
  toShaped := h.toShaped.optional
  obeys {ts} hts :=
    (h.obeys hts).orElse (obeys_success x ts) fun _ _ hP hb =>
      h.ne_nil hσ hP (begins_nothing.1 hb)

theorem orNot (h : Reads n p P σ) (hσ : σ.empty = false) :
    Reads n p.orNot (Either (Image (fun x _ => some x) P) (Nothing none)) σ.optional :=
  (h.map some).orSuccess hσ none

/-- A rule that occurs in itself, behind at least one token. -/
theorem recursive {f : Descent α β → Descent α β} (h : Shaped 0 P σ)
    (hf : ∀ m < n, ∀ q, Reads m q P σ → Reads (m + 1) (f q) P σ) :
    Reads n (recursive f) P σ := by
  suffices hall : ∀ m ≤ n, Reads m (Descent.recursive f) P σ from hall n le_rfl
  intro m hm
  induction m with
  | zero => exact ⟨h, fun hts => absurd hts (Nat.not_lt_zero _)⟩
  | succ m ih =>
    have hrec := ih (Nat.le_of_succ_le hm)
    refine ⟨(hf m hm _ hrec).toShaped, fun {ts} hts => ?_⟩
    rw [Descent.recursive]
    have hts : ts.length ≤ m := Nat.le_of_lt_succ hts
    refine (hf ts.length (hts.trans_lt hm) _ ⟨hrec.toShaped.mono hts, fun {us} hus => ?_⟩).obeys
      (Nat.lt_succ_self _)
    rw [if_pos hus]
    exact hrec.obeys (hus.trans_le hts)

theorem repeated (h : Reads n p P σ) (hσ : σ.empty = false) (hd : ∀ k ∈ σ.next, k ∉ σ.first) :
    Reads n p.repeated (Many P) σ.optional := by
  refine recursive ⟨⟨[], [], .nil⟩, fun _ => rfl, fun ht => ?_, fun hus => by cases hus⟩
    fun m hm more hmore => ?_
  · obtain ⟨us, xs, hxs⟩ := ht
    generalize hts : [_] ++ us = ts at hxs
    cases hxs with
    | nil => cases hts
    | @cons vs ws x xs hP hs =>
      obtain ⟨v, vs, rfl⟩ := List.exists_cons_of_ne_nil (h.ne_nil hσ hP)
      obtain ⟨rfl, -⟩ := List.cons.inj hts
      exact h.first ⟨vs, x, hP⟩
  · have hone := (((h.mono hm).andThen_succ hσ hmore hd).map
      fun x : β × List β => x.1 :: x.2).orSuccess (by rw [Shape.chain, hσ]; rfl) []
    refine (hone.congr fun ts xs => ⟨?_, ?_⟩).within ⟨fun _ => rfl, ?_, ?_⟩
    · rintro (⟨⟨hP, hs⟩⟩ | hnil)
      · exact .cons hP hs
      · cases hnil
        exact .nil
    · intro hs
      cases hs with
      | nil => exact .right .mk
      | cons hP hs => exact .left (.mk (Chain.mk hP hs))
    · simp [Shape.chain, Shape.optional, hσ]
    · simp [Shape.chain, Shape.optional, hσ]

theorem select {f : Spanned (Token α) → Option β} {expected : List Terminal} {k : Token.Kind}
    (h : ∃ t, (f t).isSome) (hk : ∀ t, (f t).isSome → t.value.kind = k)
    (hlisted : ∀ x ∈ expected, ∃ v : Token α, v.terminal? = some x ∧ ∀ s, (f ⟨v, s⟩).isSome)
    (hall : ∀ t, (f t).isSome → ∀ x, t.value.terminal? = some x → x ∈ expected) :
    Reads n (select expected f) (Single f) (.single k) :=
  ⟨.single h hk, fun _ => obeys_select h hlisted hall _⟩

/-- The text of a token that can be listed. -/
theorem just {x : Terminal} {v : Token α} (hx : ∀ w : Token α, w.terminal? = some x ↔ w = v) :
    Reads n (just x) (Text v) (.single (.fixed x)) := by
  have hv : v.terminal? = some x := (hx v).2 rfl
  let f (t : Spanned (Token α)) : Option Unit :=
    if t.value.terminal? = some x then some () else none
  have hf (t : Spanned (Token α)) : (f t).isSome ↔ t.value = v := by
    simp only [f, ← hx]
    split_ifs with ht <;> simp [ht]
  have hkind : v.kind = .fixed x := by
    cases v <;> simp_all [Token.terminal?, Token.kind]
  have hselect : Reads n (Descent.just x) (Single f) (.single (.fixed x)) := by
    refine select ⟨⟨v, ⟨0, 0⟩⟩, (hf _).2 rfl⟩ (fun t ht => by rw [(hf t).1 ht, hkind]) ?_ ?_
    · exact fun y hy => ⟨v, by rw [List.mem_singleton.1 hy, hv], fun s => (hf _).2 rfl⟩
    · intro t ht y hy
      rw [(hf t).1 ht, hv] at hy
      exact List.mem_singleton.2 (Option.some.inj hy).symm
  refine hselect.congr fun ts u => ⟨?_, ?_⟩
  · rintro ⟨h⟩
    rename_i t
    obtain ⟨w, s⟩ := t
    obtain rfl := (hf ⟨w, s⟩).1 (by rw [h]; rfl)
    exact .mk s
  · rintro ⟨s⟩
    exact .mk (if_pos hv)

theorem mark (m : Mark) :
    Reads n (mark m : Descent α Unit) (Text (.mark m)) (.single (.fixed (.mark m))) := by
  refine just fun w => ?_
  cases w <;> simp [Token.terminal?]

theorem keyword (k : Keyword) :
    Reads n (keyword k : Descent α Unit) (Text (.keyword k)) (.single (.fixed (.keyword k))) := by
  refine just fun w => ?_
  cases w <;> simp [Token.terminal?]

theorem delimitedBy (h : Reads n p P σ) (opening closing : Mark)
    (hc : .fixed (.mark closing) ∉ σ.next) :
    Reads (n + 1) (p.delimitedBy (.mark opening) (.mark closing)) (Enclosed P opening closing)
      (.single (.fixed (.mark opening))) := by
  have hopened := ((mark opening).andThen_succ rfl h (by simp [Shape.single])).map Prod.snd
  have hclosed := (hopened.andThen (mark closing) fun k hk hk' => hc (by
    simpa [Shape.chain, Shape.single, List.mem_singleton.1 hk'] using hk)).map Prod.fst
  refine (hclosed.congr fun ts x => ⟨?_, ?_⟩).within ⟨?_, ?_, ?_⟩
  · rintro ⟨⟨⟨⟨⟨s⟩, hP⟩⟩, ⟨s'⟩⟩⟩
    exact .mk s hP s'
  · rintro ⟨s, hP, s'⟩
    exact Chain.fst (Chain.snd (Text.mk s) hP) (Text.mk s')
  · simp [Shape.chain, Shape.single]
  · simp [Shape.chain, Shape.single]
  · simp [Shape.chain, Shape.single]

theorem further (h : Reads n p P σ) (hσ : σ.empty = false) {m : Mark} (trailing : Bool)
    (hm : .fixed (.mark m) ∉ σ.next) :
    Reads n (p.further (.mark m) trailing) (Further P m trailing) (σ.further m trailing) := by
  refine recursive ⟨⟨[], [], .nil⟩, fun _ => rfl, fun ht => ?_, fun hus => by cases hus⟩
    fun k hk more hmore => ?_
  · obtain ⟨us, xs, hxs⟩ := ht
    generalize hts : [_] ++ us = ts at hxs
    cases hxs with
    | nil => cases hts
    | last _ s =>
      obtain ⟨rfl, -⟩ := List.cons.inj hts
      exact List.mem_singleton_self _
    | more s =>
      obtain ⟨rfl, -⟩ := List.cons.inj hts
      exact List.mem_singleton_self _
  · have hd := Shape.notMem_first_further hm trailing
    have hitems := ((h.mono hk).andThen_succ hσ hmore hd).map fun x : β × List β => x.1 :: x.2
    have hempty : (σ.chain (σ.further m trailing)).empty = false := by rw [Shape.chain, hσ]; rfl
    cases trailing with
    | false =>
      have hnext := (((mark m).andThen hitems
        (by simp [Shape.single])).map Prod.snd).orSuccess rfl []
      refine (hnext.congr fun ts xs => further_iff.symm).within ⟨fun _ => rfl, ?_, ?_⟩
      · simp [Shape.chain, Shape.optional, Shape.single, Shape.further]
      · simp [Shape.chain, Shape.optional, Shape.single, Shape.further, hσ]
    | true =>
      have hnext := (((mark m).andThen (hitems.orSuccess hempty [])
        (by simp [Shape.single])).map Prod.snd).orSuccess rfl []
      refine (hnext.congr fun ts xs => trailing_iff.symm).within ⟨fun _ => rfl, ?_, ?_⟩
      · simp [Shape.chain, Shape.optional, Shape.single, Shape.further]
      · simp [Shape.chain, Shape.optional, Shape.single, Shape.further, hσ]

theorem separatedBy (h : Reads n p P σ) (hσ : σ.empty = false) {m : Mark}
    (hm : .fixed (.mark m) ∉ σ.next) :
    Reads n (p.separatedBy (.mark m) false) (Joined P m) (σ.chain (σ.further m false)) := by
  have hd := Shape.notMem_first_further hm false
  have hone := (h.andThen (h.further hσ false hm) hd).map
    fun x : β × List β => x.1 :: x.2
  exact hone.congr fun ts xs => joined_iff.symm

theorem listedBy (h : Reads n p P σ) (hσ : σ.empty = false)
    (hm : .fixed (.mark .comma) ∉ σ.next) :
    Reads n (p.listedBy (.mark .comma)) (Listed P) (σ.chain (σ.further .comma true)).optional := by
  have hd := Shape.notMem_first_further hm true
  have hone := ((h.andThen (h.further hσ true hm) hd).map
    fun x : β × List β => x.1 :: x.2).orSuccess (by rw [Shape.chain, hσ]; rfl) []
  exact hone.congr fun ts xs => listed_iff.symm

end Reads

end Descent

end Pinning

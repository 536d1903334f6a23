import Pinning.Proofs.Combinators
import Pinning.Proofs.Viability

/-!
# Recursive descent and the machine agree

Each parser of the grammar obeys its rule: what is common to two alternatives is settled by the
token after it, and no list, chain or view can go on with what comes after it. So recursive descent
gets as far as scripts do, and there looks for all that they go on with, and the error of its
furthest failure is the error of the machine (`Descent.parse_eq_run`). What is proved of
`Script.parse` then holds of the grammar as it is written with combinators
(`Script.parse_eq_descent`).
-/

namespace Pinning

variable {α : Type}

open Grammar

namespace Grammar

inductive IsName : Rule α (Spanned String)
  | mk (n : Spanned String) : IsName [⟨.ident n.value, n.span⟩] n

inductive IsMagnitude : Rule α α
  | mk (v : α) (s : Span) : IsMagnitude [⟨.number v, s⟩] v

end Grammar

namespace Descent

variable {n : ℕ}

theorem reads_identifier : Reads n (identifier : Descent α _) IsName (.single .name) := by
  have hname (t : Spanned (Token α)) (ht : t.value.ident?.isSome) : ∃ m, t.value = .ident m := by
    cases hv : t.value <;> simp_all [Token.ident?]
  have hselect : Reads n (select [] fun t : Spanned (Token α) => t.value.ident?)
      (Single fun t => t.value.ident?) (.single .name) := by
    refine .select ⟨⟨.ident "", ⟨0, 0⟩⟩, rfl⟩ (fun t ht => ?_) (by simp) fun t ht => ?_
    · obtain ⟨m, hm⟩ := hname t ht
      rw [hm, Token.kind]
    · obtain ⟨m, hm⟩ := hname t ht
      simp [hm, Token.terminal?]
  refine (hselect.mapWith fun m s => (⟨m, s⟩ : Spanned String)).congr fun ts m => ⟨?_, ?_⟩
  · rintro ⟨⟨h⟩⟩
    rename_i m t
    obtain ⟨v, s⟩ := t
    obtain ⟨k, hk⟩ := hname ⟨v, s⟩ (by rw [h]; rfl)
    obtain rfl : v = .ident k := hk
    cases h
    exact .mk ⟨m, s⟩
  · rintro ⟨m⟩
    exact .mk (Single.mk rfl)

theorem reads_key :
    Reads n (identifier.thenIgnore (mark .colon) : Descent α _) IsKey (.single .name) := by
  have hcolon : Reads n (mark .colon : Descent α Unit) _ _ := .mark .colon
  have h := (reads_identifier.andThen hcolon (by decide)).map Prod.fst
  refine (h.congr fun ts key => ⟨?_, ?_⟩).within (by decide)
  · rintro ⟨⟨⟨key⟩, ⟨s⟩⟩⟩
    exact .mk _ s
  · rintro ⟨key, s⟩
    exact Chain.fst (IsName.mk key) (Text.mk s)

variable [Scalar α]

theorem reads_magnitude : Reads n (magnitude : Descent α α) IsMagnitude (.single .number) := by
  have hnumber (t : Spanned (Token α)) (ht : t.value.number?.isSome) :
      ∃ v, t.value = .number v := by
    cases hv : t.value <;> simp_all [Token.number?]
  have hselect : Reads n (magnitude : Descent α α) (Single fun t => t.value.number?)
      (.single .number) := by
    refine .select ⟨⟨.number 0, ⟨0, 0⟩⟩, rfl⟩ (fun t ht => ?_) (by simp) fun t ht => ?_
    · obtain ⟨v, hv⟩ := hnumber t ht
      rw [hv, Token.kind]
    · obtain ⟨v, hv⟩ := hnumber t ht
      simp [hv, Token.terminal?]
  refine hselect.congr fun ts v => ⟨?_, ?_⟩
  · rintro ⟨h⟩
    rename_i t
    obtain ⟨w, s⟩ := t
    obtain ⟨x, hx⟩ := hnumber ⟨w, s⟩ (by rw [h]; rfl)
    obtain rfl : w = .number x := hx
    cases h
    exact .mk v s
  · rintro ⟨v, s⟩
    exact .mk rfl

def Shape.number : Shape where
  empty := false
  first := [.fixed (.mark .minus), .number]
  next := []

theorem reads_signedNumber : Reads n (signedNumber : Descent α α) IsNumber Shape.number := by
  have h := (((Reads.mark .minus (n := n)).orNot rfl).andThen reads_magnitude (by decide)).map
    fun x : Option Unit × α => if x.1.isSome then -x.2 else x.2
  refine (h.congr fun ts v => ⟨?_, ?_⟩).within (by decide)
  · rintro ⟨⟨(⟨⟨⟨s⟩⟩⟩ | hnil), ⟨_, s'⟩⟩⟩
    · exact .negative s _ s'
    · cases hnil
      exact .plain _ s'
  · rintro (⟨v, s⟩ | ⟨s, v, s'⟩)
    · exact .mk (Chain.mk (Either.right Nothing.mk) (IsMagnitude.mk v s))
    · exact .mk (Chain.mk (Either.left (Image.mk (Text.mk s))) (IsMagnitude.mk v s'))

theorem reads_modifier : Reads n (modifier : Descent α _) IsModifier (.single .name) := by
  have hvalue := (reads_signedNumber (α := α) (n := n)).mapWith fun v s => (⟨v, s⟩ : Spanned α)
  have h := (reads_key.andThen hvalue (by decide)).mapWith
    fun (x : Spanned String × Spanned α) s => (⟨s, x.1, x.2⟩ : Modifier α)
  refine (h.congr fun ts m => ⟨?_, ?_⟩).within (by decide)
  · rintro ⟨⟨⟨key, s⟩, ⟨hv⟩⟩⟩
    exact .mk _ s hv
  · rintro ⟨key, s, hv⟩
    exact .mk (Chain.mk (IsKey.mk key s) (Image.mk hv))

theorem reads_modifierBlock :
    Reads n (modifierBlock : Descent α _) (Enclosed (Listed IsModifier) .bracketOpen .bracketClose)
      (.single (.fixed (.mark .bracketOpen))) :=
  ((reads_modifier.listedBy rfl (by decide)).delimitedBy _ _ (by decide)).mono n.le_succ

def viewShape : Shape where
  empty := false
  first := [.fixed (.keyword .view)]
  next := [.fixed (.mark .bracketOpen), .fixed (.mark .braceOpen)]

/-- A keyword and a name. -/
inductive IsTitle (k : Keyword) : Rule α (Spanned String)
  | mk (s : Span) (name : Spanned String) :
    IsTitle k [⟨.keyword k, s⟩, ⟨.ident name.value, name.span⟩] name

omit [Scalar α] in
theorem reads_title (k : Keyword) :
    Reads n ((keyword k).ignoreThen identifier : Descent α _) (IsTitle k)
      (.single (.fixed (.keyword k))) := by
  have hkeyword : Reads n (keyword k : Descent α Unit) _ _ := .keyword k
  have h := (hkeyword.andThen reads_identifier (by simp [Shape.single])).map Prod.snd
  refine (h.congr fun ts name => ⟨?_, ?_⟩).within ?_
  · rintro ⟨⟨⟨s⟩, ⟨name⟩⟩⟩
    exact .mk s _
  · rintro ⟨s, name⟩
    exact Chain.snd (Text.mk s) (IsName.mk name)
  · simp [Shape.chain, Shape.single, Shape.Within]

theorem reads_viewOf {view : Descent α (View α)} (h : Reads n view IsView viewShape) :
    Reads (n + 1) (viewOf view) IsView viewShape := by
  have hhead := (reads_title (n := n + 1) .view).andThen
    (reads_modifierBlock (α := α).orNot rfl) (by decide)
  have hchildren := ((h.repeated rfl (by decide)).delimitedBy .braceOpen .braceClose
    (by decide)).orNot rfl
  have hview := (hhead.andThen hchildren (by decide)).mapWith
    fun (x : (Spanned String × Option (List (Modifier α))) × Option (List (View α))) s =>
      (⟨s, x.1.1, x.1.2.getD [], x.2.getD []⟩ : View α)
  refine (hview.congr fun ts v => ⟨?_, ?_⟩).within (by decide)
  · rintro ⟨⟨⟨⟨s, name⟩, hm⟩, hc⟩⟩
    exact .mk s _ hm.optional hc.optional
  · rintro ⟨s, name, hm, hc⟩
    obtain ⟨o, ho, rfl⟩ := hm.exists_either
    obtain ⟨o', ho', rfl⟩ := hc.exists_either
    exact .mk (Chain.mk (Chain.mk (IsTitle.mk s name) ho) ho')

theorem reads_view : Reads n (view : Descent α _) IsView viewShape := by
  refine .recursive ⟨?_, ?_, ?_, fun hus => by cases hus⟩ fun m _ q hq => reads_viewOf hq
  · exact ⟨_, _, .mk ⟨0, 0⟩ ⟨"", ⟨0, 0⟩⟩ .absent .absent⟩
  · rintro _ ⟨⟩
  · rintro t ⟨us, v, hv⟩
    generalize hts : [t] ++ us = ts at hv
    cases hv
    obtain ⟨rfl, -⟩ := List.cons.inj hts
    exact List.mem_singleton_self _

def argShape : Shape where
  empty := false
  first := [.fixed (.mark .minus), .number, .name, .fixed (.mark .bracketOpen)]
  next := [.fixed (.mark .percent), .fixed (.mark .colon), .fixed (.mark .dot)]

inductive IsAmount : Rule α (Span → Arg α)
  | number {ts : Phrase α} {v : α} (h : IsNumber ts v) : IsAmount ts fun s => .number s v
  | percent {ts : Phrase α} {v : α} (h : IsNumber ts v) (s : Span) :
    IsAmount (ts ++ [⟨.mark .percent, s⟩]) fun s => .percent s v

inductive IsNamed : Rule α (Span → Arg α)
  | mk {ts us : Phrase α} {key : Spanned String} {arg : Arg α} (hkey : IsKey ts key)
    (h : IsArg us arg) : IsNamed (ts ++ us) fun s => .named s key arg

inductive IsList : Rule α (Span → Arg α)
  | mk {ts : Phrase α} {args : List (Arg α)}
    (h : Enclosed (Listed IsArg) .bracketOpen .bracketClose ts args) :
    IsList ts fun s => .list s args

inductive IsReference : Rule α (Span → Arg α)
  | name (n : Spanned String) : IsReference [⟨.ident n.value, n.span⟩] fun s => .name s n.value
  | member (n : Spanned String) (s : Span) (m : Spanned String) :
    IsReference [⟨.ident n.value, n.span⟩, ⟨.mark .dot, s⟩, ⟨.ident m.value, m.span⟩]
      fun s => .member s n.value m.value

theorem reads_numberOrPercent :
    Reads n (numberOrPercent : Descent α _) IsAmount
      ⟨false, Shape.number.first, [.fixed (.mark .percent)]⟩ := by
  have hpercent : Reads n (mark .percent : Descent α Unit) _ _ := .mark .percent
  have h := (reads_signedNumber.andThen (hpercent.orNot rfl) (by decide)).map
    fun (x : α × Option Unit) s => if x.2.isSome then Arg.percent s x.1 else .number s x.1
  refine (h.congr fun ts f => ⟨?_, ?_⟩).within (by decide)
  · rintro ⟨⟨hv, (⟨⟨⟨s⟩⟩⟩ | hnil)⟩⟩
    · exact .percent hv s
    · cases hnil
      rw [List.append_nil]
      exact .number hv
  · rintro (hv | ⟨hv, s⟩)
    · rw [← List.append_nil ts]
      exact .mk (Chain.mk hv (Either.right Nothing.mk))
    · exact .mk (Chain.mk hv (Either.left (Image.mk (Text.mk s))))

theorem reads_named {arg : Descent α (Arg α)} (h : Reads n arg IsArg argShape) :
    Reads (n + 1) (named arg) IsNamed ⟨false, [.name], argShape.next⟩ := by
  have hnamed := (reads_key.andThen_succ rfl h (by decide)).map
    fun (x : Spanned String × Arg α) s => Arg.named s x.1 x.2
  refine (hnamed.congr fun ts f => ⟨?_, ?_⟩).within (by decide)
  · rintro ⟨⟨hkey, harg⟩⟩
    exact .mk hkey harg
  · rintro ⟨hkey, harg⟩
    exact .mk (Chain.mk hkey harg)

theorem reads_list {arg : Descent α (Arg α)} (h : Reads n arg IsArg argShape) :
    Reads (n + 1) (list arg) IsList (.single (.fixed (.mark .bracketOpen))) := by
  have hlist := ((h.listedBy rfl (by decide)).delimitedBy .bracketOpen .bracketClose
    (by decide)).map fun (args : List (Arg α)) s => Arg.list s args
  refine hlist.congr fun ts f => ⟨?_, ?_⟩
  · rintro ⟨h⟩
    exact .mk h
  · rintro ⟨h⟩
    exact .mk h

omit [Scalar α] in
theorem reads_nameOrMember :
    Reads n (nameOrMember : Descent α _) IsReference ⟨false, [.name], [.fixed (.mark .dot)]⟩ := by
  have hdot : Reads n (mark .dot : Descent α Unit) _ _ := .mark .dot
  have hmember := ((hdot.andThen reads_identifier (by decide)).map Prod.snd).orNot rfl
  refine (((reads_identifier.andThen hmember (by decide)).map _).congr
    fun ts f => ⟨?_, ?_⟩).within (by decide)
  · rintro ⟨⟨⟨name⟩, (⟨⟨⟨⟨⟨s⟩, ⟨member⟩⟩⟩⟩⟩ | hnil)⟩⟩
    · exact .member _ s _
    · cases hnil
      exact .name _
  · rintro (name | ⟨name, s, member⟩)
    · exact .mk (Chain.mk (IsName.mk name) (Either.right Nothing.mk))
    · exact .mk (Chain.mk (IsName.mk name)
        (Either.left (Image.mk (Chain.snd (Text.mk s) (IsName.mk member)))))

/-- A key is told from a reference by what comes after the name. -/
theorem IsNamed.not_begins {ts : Phrase α} {f : Span → Arg α} (h : IsNamed ts f) :
    ¬Begins (Either IsList IsReference) ts := by
  rintro ⟨us, g, hg⟩
  rcases h with ⟨⟨key, s⟩, -⟩
  generalize hvs : _ ++ us = vs at hg
  rcases hg with ⟨⟨⟨_, _, _⟩⟩⟩ | ⟨_ | _⟩ <;> simp at hvs

theorem kind_of_named {ts : Phrase α} {f : Span → Arg α} {t : Spanned (Token α)}
    (h : Either IsList IsReference ts f) (ht : Begins IsNamed (ts ++ [t])) :
    t.value.kind = .fixed (.mark .colon) := by
  obtain ⟨us, g, hg⟩ := ht
  generalize hvs : ts ++ [t] ++ us = vs at hg
  rcases hg with ⟨⟨key, s⟩, -⟩
  rcases h with ⟨⟨⟨_, _, _⟩⟩⟩ | ⟨_ | _⟩
  · simp at hvs
  · obtain ⟨-, rfl, -⟩ : _ ∧ t = _ ∧ _ := by simpa using hvs
    rfl
  · simp at hvs

theorem reads_argOf {arg : Descent α (Arg α)} (h : Reads n arg IsArg argShape) :
    Reads (n + 1) (argOf arg) IsArg argShape := by
  have hlist := (reads_list h).orElse reads_nameOrMember rfl rfl (by decide)
  have hnamed := (reads_named h).orElse_of hlist (fun ts f hf => IsNamed.not_begins hf)
    fun ts f t hf ht => by
      rw [kind_of_named hf ht]
      decide
  have harg := (reads_numberOrPercent.orElse hnamed rfl rfl (by decide)).mapWith
    fun (f : Span → Arg α) s => f s
  refine (harg.congr fun ts arg => ⟨?_, ?_⟩).within (by decide)
  · rintro ⟨(hf | ⟨⟨⟨key, s⟩, harg⟩⟩ | ⟨⟨hitems⟩⟩ | href)⟩
    · cases hf with
      | number hv => exact .number hv
      | percent hv s => exact .percent hv s
    · exact .named _ s harg
    · exact .list hitems
    · cases href with
      | name n => exact .name n
      | member n s m => exact .member n s m
  · intro harg
    obtain ⟨f, hf, rfl⟩ : ∃ f, Either IsAmount (Either IsNamed (Either IsList IsReference)) ts f
        ∧ arg = f (extent ts) := by
      cases harg with
      | number hv => exact ⟨_, .left (.number hv), rfl⟩
      | percent hv s => exact ⟨_, .left (.percent hv s), rfl⟩
      | named key s h => exact ⟨_, .right (.left (.mk (.mk key s) h)), rfl⟩
      | list h => exact ⟨_, .right (.right (.left (.mk h))), rfl⟩
      | name n => exact ⟨_, .right (.right (.right (.name n))), rfl⟩
      | member n s m => exact ⟨_, .right (.right (.right (.member n s m))), rfl⟩
    exact .mk hf

theorem reads_arg : Reads n (arg : Descent α _) IsArg argShape := by
  refine .recursive ⟨?_, ?_, ?_, fun hus => by cases hus⟩ fun m _ q hq => reads_argOf hq
  · exact ⟨_, _, .name ⟨"", ⟨0, 0⟩⟩⟩
  · exact fun h => absurd rfl h.ne_nil
  · rintro t ⟨us, arg, harg⟩
    generalize hts : [t] ++ us = ts at harg
    have hfirst : ∀ u ∈ ts.head?, u.value.kind ∈ argShape.first := by
      cases harg with
      | number hv | percent hv => cases hv <;> simp [Token.kind, argShape]
      | list h =>
        cases h
        simp [Token.kind, argShape]
      | named | name | member => simp [Token.kind, argShape]
    exact hfirst t (by rw [← hts]; rfl)

theorem reads_call : Reads n (call : Descent α _) IsCall (.single .name) := by
  have hargs := ((reads_arg (α := α) (n := n)).listedBy rfl (by decide)).delimitedBy
    .parenOpen .parenClose (by decide)
  have h := (reads_identifier.andThen (hargs.mono n.le_succ) (by decide)).mapWith
    fun (x : Spanned String × List (Arg α)) s => (⟨s, x.1, x.2⟩ : Call α)
  refine (h.congr fun ts c => ⟨?_, ?_⟩).within (by decide)
  · rintro ⟨⟨⟨name⟩, hargs⟩⟩
    exact .mk _ hargs
  · rintro ⟨name, hargs⟩
    exact .mk (Chain.mk (IsName.mk name) hargs)

inductive IsDirection : Rule α (Span → Statement α)
  | mk {ts : Phrase α} {name : Spanned String} (h : IsTitle .direction ts name) :
    IsDirection ts fun s => .direction s name

inductive IsPin : Rule α (Span → Statement α)
  | mk {ts us : Phrase α} {target : Spanned String} {calls : List (Call α)}
    (h : IsTitle .pin ts target) (s : Span) (hcalls : Joined IsCall .dot us calls) :
    IsPin (ts ++ [⟨.mark .colon, s⟩] ++ us) fun s => .pin s target calls

omit [Scalar α] in
theorem reads_direction :
    Reads n (direction : Descent α _) IsDirection (.single (.fixed (.keyword .direction))) := by
  have h := (reads_title (α := α) (n := n) .direction).map
    fun name (s : Span) => (.direction s name : Statement α)
  refine h.congr fun ts f => ⟨?_, ?_⟩
  · rintro ⟨h⟩
    exact .mk h
  · rintro ⟨h⟩
    exact .mk h

theorem reads_pin :
    Reads n (pin : Descent α _) IsPin
      ⟨false, [.fixed (.keyword .pin)], [.fixed (.mark .dot)]⟩ := by
  have hcolon : Reads n (mark .colon : Descent α Unit) _ _ := .mark .colon
  have htarget := ((reads_title .pin).andThen hcolon (by decide)).map Prod.fst
  have hcalls := (reads_call (α := α) (n := n)).separatedBy rfl (m := .dot) (by decide)
  have h := (htarget.andThen hcalls (by decide)).map
    fun (x : Spanned String × List (Call α)) s => Statement.pin s x.1 x.2
  refine (h.congr fun ts f => ⟨?_, ?_⟩).within (by decide)
  · rintro ⟨⟨⟨⟨h, ⟨s⟩⟩⟩, hcalls⟩⟩
    exact .mk h s hcalls
  · rintro ⟨h, s, hcalls⟩
    exact .mk (Chain.mk (Chain.fst h (Text.mk s)) hcalls)

def statementShape : Shape where
  empty := false
  first := [.fixed (.keyword .direction), .fixed (.keyword .pin), .fixed (.keyword .view)]
  next := [.fixed (.mark .dot), .fixed (.mark .bracketOpen), .fixed (.mark .braceOpen)]

theorem reads_statement : Reads n (statement : Descent α _) IsStatement statementShape := by
  have hview := (reads_view (α := α) (n := n)).map fun v (_ : Span) => Statement.view v
  have h := (reads_direction.orElse (reads_pin.orElse hview rfl rfl (by decide)) rfl rfl
    (by decide)).mapWith fun (f : Span → Statement α) s => f s
  refine (h.congr fun ts st => ⟨?_, ?_⟩).within (by decide)
  · rintro ⟨(⟨⟨s, name⟩⟩ | ⟨⟨s, target⟩, s', hcalls⟩ | ⟨⟨hv⟩⟩)⟩
    · exact .direction s _
    · exact .pin s _ s' hcalls
    · exact .view hv
  · intro hst
    obtain ⟨f, hf, rfl⟩ : ∃ f, Either IsDirection (Either IsPin
        (Image (fun v _ _ => Statement.view v) IsView)) ts f ∧ st = f (extent ts) := by
      cases hst with
      | direction s name => exact ⟨_, .left (.mk (.mk s name)), rfl⟩
      | pin s target s' hcalls => exact ⟨_, .right (.left (.mk (.mk s target) s' hcalls)), rfl⟩
      | view hv => exact ⟨_, .right (.right (.mk hv)), rfl⟩
    exact .mk hf

theorem reads_statements : Reads n (statement.repeated : Descent α _) (Many IsStatement)
    statementShape.optional :=
  reads_statement.repeated rfl (by decide)

theorem obeys_statements (ts : Phrase α) : Obeys (Many IsStatement) ts (statement.repeated ts) :=
  reads_statements.obeys (Nat.lt_succ_self ts.length)

theorem begins_statements_iff {ts : Phrase α} : Begins (Many IsStatement) ts ↔ Viable ts :=
  ⟨fun ⟨us, sts, h⟩ => ⟨us, ⟨sts⟩, h⟩, fun ⟨us, s, h⟩ => ⟨us, s.statements, h⟩⟩

theorem script_of_statements {ts rest : Phrase α} {sts : List (Statement α)}
    (h : (statement.repeated ts).result = some (sts, rest)) :
    script ts = ⟨(endOfInput rest).result.map fun x => (⟨sts⟩, x.2),
      furthest (statement.repeated ts).failure (endOfInput rest).failure⟩ := by
  simp only [script, thenIgnore, map, mapWith, andThen_of_some h, Option.map_map]
  rfl

/-- A failure behind the first part of some tokens, with all expected that scripts go on with. -/
structure Expects (pre post : Phrase α) (e : Failure) : Prop where
  left : e.left = post.length
  ends : .endOfInput ∈ e.expected ↔ ∃ sts, Many IsStatement pre sts
  goesOn {v : Token α} {x : Terminal} (hx : v.terminal? = some x) (s : Span) :
    x ∈ e.expected ↔ Begins (Many IsStatement) (pre ++ [⟨v, s⟩])

variable {pre post rest : Phrase α} {sts : List (Statement α)}

/-- Where statements end, the end of the input is looked for besides what they go on with. -/
theorem exists_expects_of_ends (hlong : Longest (Many IsStatement) pre post)
    (hsts : Many IsStatement pre sts) :
    ∃ e, furthest (statement.repeated (pre ++ post)).failure (some ⟨post.length, [.endOfInput]⟩)
      = some e ∧ Expects pre post e := by
  have hobeys := obeys_statements (pre ++ post)
  have hother {v : Token α} {x : Terminal} (hx : v.terminal? = some x) :
      x ∉ [Terminal.endOfInput] := by
    intro hmem
    obtain rfl := List.mem_singleton.1 hmem
    exact v.terminal?_ne_endOfInput hx
  by_cases hplace : ∃ f ∈ (statement.repeated (pre ++ post)).failure, f.left = post.length
  · obtain ⟨f, hf, hleft⟩ := hplace
    refine ⟨⟨f.left, f.expected ++ [.endOfInput]⟩, ?_, hleft, ?_, fun hx s => ?_⟩
    · rw [hf, furthest_of_eq hleft]
    · exact iff_of_true (List.mem_append_right _ (List.mem_singleton_self _)) ⟨sts, hsts⟩
    · rw [List.mem_append, or_iff_left (hother hx)]
      exact hobeys.mem_expected_iff hlong hf hleft hx s
  · refine ⟨⟨post.length, [.endOfInput]⟩, ?_, rfl, ?_, fun hx s => ?_⟩
    · cases hf : (statement.repeated (pre ++ post)).failure with
      | none => exact none_furthest _
      | some f =>
        have hle := hobeys.tried.length_le hlong f hf
        have hne : post.length ≠ f.left := fun heq => hplace ⟨f, hf, heq.symm⟩
        exact furthest_of_gt (lt_of_le_of_ne hle hne)
    · exact iff_of_true (List.mem_singleton_self _) ⟨sts, hsts⟩
    · refine iff_of_false (hother hx) fun hb => ?_
      obtain ⟨f, hf, hleft, -⟩ := hobeys.meets rfl hlong hb
      exact hplace ⟨f, hf, hleft⟩

/-- Where no statement ends, one was given up there, and the statements before it end earlier. -/
theorem exists_expects_of_not_ends (hlong : Longest (Many IsStatement) pre post)
    (hends : ¬∃ sts, Many IsStatement pre sts)
    (h : (statement.repeated (pre ++ post)).result = some (sts, rest)) :
    ∃ e, furthest (statement.repeated (pre ++ post)).failure (some ⟨rest.length, [.endOfInput]⟩)
      = some e ∧ Expects pre post e := by
  have hobeys := obeys_statements (pre ++ post)
  obtain ⟨f, hf, hleft⟩ := hobeys.exists_failure hlong hends
  have hlt : f.left < rest.length := by
    obtain ⟨us, hus, hsts⟩ := hobeys.sound h
    obtain ⟨vs, rfl, rfl⟩ := hlong.exists_append (.of_phrase hsts) hus
    cases vs with
    | nil =>
      rw [List.append_nil] at hends
      exact absurd ⟨sts, hsts⟩ hends
    | cons v vs =>
      rw [hleft, List.cons_append, List.length_cons, List.length_append]
      omega
  have hnotMem := hobeys.tried.endOfInput_notMem hf
  refine ⟨f, ?_, hleft, iff_of_false hnotMem hends, fun hx s => ?_⟩
  · rw [hf, furthest_of_lt hlt]
  · exact hobeys.mem_expected_iff hlong hf hleft hx s

/-- Where tokens are left, the furthest failure is behind the longest beginning of a script. -/
theorem exists_expects (hlong : Longest (Many IsStatement) pre post)
    (h : (statement.repeated (pre ++ post)).result = some (sts, rest)) :
    ∃ e, furthest (statement.repeated (pre ++ post)).failure (some ⟨rest.length, [.endOfInput]⟩)
      = some e ∧ Expects pre post e := by
  by_cases hends : ∃ sts, Many IsStatement pre sts
  · obtain ⟨sts', hsts'⟩ := hends
    have hobeys := obeys_statements (pre ++ post)
    have hsame := h.symm.trans (hobeys.reads rfl hlong hsts')
    obtain rfl : rest = post := congrArg Prod.snd (Option.some.inj hsame)
    exact exists_expects_of_ends hlong hsts'
  · exact exists_expects_of_not_ends hlong hends h

/-- Where the machine stops, nothing that begins a script gets further. -/
theorem longest_of_steps {s : Parser.State α}
    (hs : ({} : Parser.State α).steps? pre = some s) (hstuck : ∀ t ∈ post.head?, s.step? t = none) :
    Longest (Many IsStatement) pre post where
  begins := begins_statements_iff.2 ((viable_iff_steps 0).2 ⟨s, hs⟩)
  stops t ht hb := by
    have hstep := (viable_concat_iff 0 hs t).1 (begins_statements_iff.1 hb)
    rw [hstuck t ht] at hstep
    cases hstep

/-- The machine expects what scripts go on with. -/
theorem accepts_iff {s : Parser.State α} (hs : ({} : Parser.State α).steps? pre = some s)
    {v : Token α} {x : Terminal} (hx : v.terminal? = some x) :
    s.accepts x ↔ Begins (Many IsStatement) (pre ++ [⟨v, ⟨0, 0⟩⟩]) := by
  rw [begins_statements_iff, viable_concat_iff 0 hs]
  cases v <;> cases hx <;> rfl

theorem Expects.expected_eq {e : Failure} (h : Expects pre post e) {s : Parser.State α}
    (hs : ({} : Parser.State α).steps? pre = some s) :
    Terminal.all.filter (fun x => decide (x ∈ e.expected)) = s.expected := by
  refine List.filter_congr fun x _ => ?_
  rw [Bool.eq_iff_iff, decide_eq_true_iff]
  cases x with
  | mark m =>
    have hx : (Token.mark m : Token α).terminal? = some (.mark m) := rfl
    exact (h.goesOn hx _).trans (accepts_iff hs hx).symm
  | keyword k =>
    have hx : (Token.keyword k : Token α).terminal? = some (.keyword k) := rfl
    exact (h.goesOn hx _).trans (accepts_iff hs hx).symm
  | endOfInput =>
    refine h.ends.trans (Iff.trans ?_ (isScript_iff_script? hs))
    exact ⟨fun ⟨sts, h⟩ => ⟨⟨sts⟩, h⟩, fun ⟨script, h⟩ => ⟨script.statements, h⟩⟩

/-- Where no script ends, recursive descent fails at the next token, or behind the last one. -/
theorem parse_of_longest (length : ℕ) {s : Parser.State α}
    (hs : ({} : Parser.State α).steps? pre = some s) (hlong : Longest (Many IsStatement) pre post)
    (hno : ¬∃ script, IsScript (pre ++ post) script) :
    parse length (pre ++ post) = .error (post.head?.elim
      ⟨⟨(extent (pre ++ post)).stop, length⟩, none, s.expected⟩
      fun t => ⟨t.span, some t.value, s.expected⟩) := by
  obtain ⟨sts, rest, hr⟩ := exists_repeated statement (pre ++ post)
  obtain ⟨f, hf, hexpects⟩ := exists_expects hlong hr
  have hexpected := hexpects.expected_eq hs
  have hdrop : (pre ++ post).drop ((pre ++ post).length - f.left) = post := by
    rw [hexpects.left, List.length_append, Nat.add_sub_cancel, List.drop_left]
  cases rest with
  | nil =>
    have hobeys := obeys_statements (pre ++ post)
    obtain ⟨us, hus, hsts⟩ := hobeys.sound hr
    rw [List.append_nil] at hus
    exact absurd ⟨⟨sts⟩, hus ▸ hsts⟩ hno
  | cons t rest =>
    have hfailed : script (pre ++ post) = ⟨none, some f⟩ := by
      rw [script_of_statements hr, ← hf]
      rfl
    rw [parse, hfailed]
    simp only [Option.getD_some, Failure.report, hdrop, hexpected]
    cases post <;> rfl

/-- Recursive descent reads the scripts that the machine reads, and fails as it does: at the same
token, and with the same expected. -/
theorem parse_eq_run (length : ℕ) (ts : Phrase α) :
    parse length ts = Parser.run length 0 {} ts := by
  obtain ⟨sts, rest, hr⟩ := exists_repeated statement ts
  have hobeys := obeys_statements ts
  cases hrun : Parser.run length 0 ({} : Parser.State α) ts with
  | ok script =>
    have hscript : IsScript ts script := IsScript.iff_steps.2 (Parser.run_eq_ok_iff.1 hrun)
    have hlong : Longest (Many IsStatement) ts [] :=
      ⟨.of_phrase hscript, fun t ht => by cases ht⟩
    cases hr.symm.trans (hobeys.reads (List.append_nil ts).symm hlong hscript)
    rw [parse, script_of_statements hr]
    rfl
  | error e =>
    have hno : ¬∃ script, IsScript ts script := by
      rintro ⟨script, hscript⟩
      rw [Parser.run_eq_ok_iff.2 (IsScript.iff_steps.1 hscript)] at hrun
      cases hrun
    obtain ⟨pre, s, hs, hexpected, hplace⟩ := Parser.exists_of_run_error hrun
    obtain ⟨span, found, expected⟩ := e
    obtain rfl : expected = s.expected := hexpected
    rcases hplace with ⟨t, post, rfl, hstep, rfl, rfl⟩ | ⟨rfl, -, rfl, rfl⟩
    · refine parse_of_longest length hs (longest_of_steps hs ?_) hno
      rintro _ ⟨⟩
      exact hstep
    · have hlong : Longest (Many IsStatement) ts [] :=
        longest_of_steps hs fun t ht => by cases ht
      rw [← List.append_nil ts] at hno
      have h := parse_of_longest length hs hlong hno
      rwa [List.append_nil] at h

end Descent

/-- A source is read as recursive descent reads its tokens. -/
theorem Script.parse_eq_descent [Scalar α] (source : String) :
    (Script.parse source : Except (SyntaxError α) (Script α))
      = Descent.parse source.utf8ByteSize (Lexer.tokens source) :=
  (Descent.parse_eq_run _ _).symm

end Pinning

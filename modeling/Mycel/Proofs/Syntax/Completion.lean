import Mycel.Proofs.Syntax.Precedence
import Mycel.Proofs.Syntax.Rejection
import Mycel.Proofs.Token.Layout
import Mycel.Proofs.Token.Literals
import Mycel.Repl.Basic

/-!
# Sources that go on

When the parser stops, what it has taken can still become a program: each goal that is waiting can
be ended with a few lexemes (`Enters.ends`, `Stops.completed`). So an error stands at the first
token that rules out every program. An error that is not about the end of the input stays as it is
when lines are added to the source, which is what an interactive session relies on.
-/

namespace Mycel

open Mycel.Stream

/-! ## Ending what has been started -/

def Lexeme.Spelled (l : Lexeme) : Prop := ∃ w, l.Written w

/-- The name that is put where an expression or a name is missing. -/
def fillerName : Text := bytes "x"

def filler : Lexeme := .identifier fillerName

theorem spelled_mark (m : Mark) : (Lexeme.mark m).Spelled := ⟨_, .mark m⟩

theorem spelled_filler : filler.Spelled :=
  ⟨fillerName, written_name ⟨⟨_, _, rfl, by decide, List.forall_mem_nil _⟩, by decide⟩⟩

theorem spelled_then : (Lexeme.keyword .thenWord).Spelled := ⟨_, written_keyword .thenWord⟩

theorem final_filler : filler.Final := by simp [Lexeme.Final, filler, Parser.connective?]

theorem final_then : (Lexeme.keyword .thenWord).Final := by
  simp [Lexeme.Final, Parser.connective?]

theorem Enclosure.final_stop (b : Enclosure) : (Lexeme.mark b.stop).Final := by
  cases b <;> simp [Lexeme.Final, stop, Parser.connective?]

theorem final_endOfInput : Lexeme.endOfInput.Final := by simp [Lexeme.Final, Parser.connective?]

/-- With lexemes like these after the tokens, a goal is reached. -/
def Goal.Completes (g : Goal) (ts : List Token) (ls : List Lexeme) : Prop :=
  ∀ us : List Token, us.map (·.lexeme) = ls → ∀ next : Lexeme, next.Final →
    ∃ r, Reads g (ts ++ us) next r

/-- The first of some lexemes, if there is one, may come after a whole expression. -/
def FinalFirst (ls : List Lexeme) : Prop := ∀ l ∈ ls.head?, l.Final

theorem FinalFirst.ahead {ls : List Lexeme} (h : FinalFirst ls) {us : List Token}
    (hus : us.map (·.lexeme) = ls) {next : Lexeme} (hnext : next.Final) :
    (ahead us next).Final := by
  subst hus
  cases us with
  | nil => exact hnext
  | cons u us => exact h _ rfl

theorem Reads.at {g : Goal} {ts : List Token} {l l' : Lexeme} {r : g.Result} (h : Reads g ts l r)
    (hl : l' = l ∨ l'.Final) : Reads g ts l' r := by
  rcases hl with rfl | hl
  · exact h
  · exact h.next hl

section

variable {t : Token} {ts us : List Token} {next : Lexeme}

theorem reads_chainEnd (a : Node) (level : Nat) (hnext : next.Final) :
    Reads (.chain a level) [] next a :=
  .chainEnd fun _ hc => nomatch hnext.1.symm.trans hc

theorem reads_filler (ht : t.lexeme = filler) (hnext : next.Final) :
    ∃ e, Reads (.item .expression) [t] next e := by
  have hleaf : leaf? t = some (.identifier t.pos fillerName) := by simp [leaf?, ht, filler]
  have hoperand : Reads .operand ([t] ++ []) next _ := .operand (.leaf hleaf) (.callsEnd hnext.2.1)
  exact ⟨_, .expression hoperand (reads_chainEnd _ 0 hnext)⟩

/-- What follows `lambda` or `let` makes an expression of it. -/
theorem Heads.reads {k : Keyword} {i : Item} {u : Token} {names : List Token} {f : Option Text}
    {xs : List i.Result} {e : Node} (hk : Heads k i) (ht : t.lexeme = .keyword k)
    (hf : ReadsName names f) (hu : u.lexeme = .mark .openParen)
    (list : Reads (.items i .parens true) ts (ahead us next) xs)
    (rest : Reads (.item .expression) us next e) :
    ∃ e, Reads .primary (t :: (names ++ u :: (ts ++ us))) next e := by
  cases hk with
  | lambdaWord => exact ⟨_, .lambdaWord ht hf hu list rest⟩
  | letWord => exact ⟨_, .letWord ht hf hu list rest⟩

end

/-- How a goal is ended that has given up. -/
theorem Refuses.completed {g : Goal} {ts : List Token} {l : Lexeme} {fault : Fault}
    (h : Refuses g ts l fault) : ∃ ls : List Lexeme, (∀ l ∈ ls, l.Spelled) ∧
      (ts = [] → FinalFirst ls) ∧ g.Completes ts ls := by
  cases h with
  | primary hl =>
    refine ⟨[filler], by simp [spelled_filler], fun _ => by simp [FinalFirst, final_filler], ?_⟩
    intro us hus next _
    obtain ⟨u, rfl, hu⟩ := List.map_eq_singleton_iff.1 hus
    exact ⟨_, .leaf (e := .identifier u.pos fillerName) (by simp [leaf?, hu, filler])⟩
  | name hl =>
    refine ⟨[filler], by simp [spelled_filler], fun _ => by simp [FinalFirst, final_filler], ?_⟩
    intro us hus next _
    obtain ⟨⟨u, pos⟩, rfl, rfl⟩ := List.map_eq_singleton_iff.1 hus
    exact ⟨_, .name⟩
  | paren ht inside hl =>
    refine ⟨[.mark .closeParen], by simp [spelled_mark],
      fun h => absurd h (List.cons_ne_nil _ _), ?_⟩
    intro us hus next _
    obtain ⟨u, rfl, hu⟩ := List.map_eq_singleton_iff.1 hus
    exact ⟨_, .paren ht hu (inside.next (Enclosure.final_stop .parens))⟩
  | @header t k i names f l hk ht hf hname hl =>
    refine ⟨[.mark .openParen, .mark .closeParen, filler], by simp [spelled_mark, spelled_filler],
      fun h => absurd h (List.cons_ne_nil _ _), ?_⟩
    intro us hus next hnext
    obtain ⟨u, us, rfl, hu, hus⟩ := List.map_eq_cons_iff.1 hus
    obtain ⟨v, us, rfl, hv, hus⟩ := List.map_eq_cons_iff.1 hus
    obtain ⟨w, rfl, hw⟩ := List.map_eq_singleton_iff.1 hus
    obtain ⟨e, he⟩ := reads_filler hw hnext
    exact hk.reads ht hf hu (.close hv) he
  | thenWord first hbrace hl =>
    refine ⟨[.keyword .thenWord, filler], by simp [spelled_then, spelled_filler],
      fun _ => by simp [FinalFirst, final_then], ?_⟩
    intro us hus next hnext
    obtain ⟨u, us, rfl, hu, hus⟩ := List.map_eq_cons_iff.1 hus
    obtain ⟨v, rfl, hv⟩ := List.map_eq_singleton_iff.1 hus
    obtain ⟨e, he⟩ := reads_filler hv hnext
    have hthen : (ahead ([u] ++ [v]) next).Final := by simpa [ahead, hu] using final_then
    exact ⟨_, .withoutElse (first.next hthen) (.word hu _) he hnext.2.2⟩
  | @separator i b l hends hl =>
    refine ⟨[.mark b.stop], by simp [spelled_mark], fun _ => by simp [FinalFirst, b.final_stop], ?_⟩
    intro us hus next _
    obtain ⟨u, rfl, hu⟩ := List.map_eq_singleton_iff.1 hus
    exact ⟨_, .close hu⟩
  | @stop i b first =>
    refine ⟨[.mark b.stop], by simp [spelled_mark], fun _ => by simp [FinalFirst, b.final_stop], ?_⟩
    intro us hus next _
    obtain ⟨u, rfl, hu⟩ := List.map_eq_singleton_iff.1 hus
    exact ⟨_, .close hu⟩
  | @stopNext i b t ht =>
    refine ⟨[.mark b.stop], by simp [spelled_mark],
      fun h => absurd h (List.cons_ne_nil _ _), ?_⟩
    intro us hus next _
    obtain ⟨u, rfl, hu⟩ := List.map_eq_singleton_iff.1 hus
    exact ⟨_, .trailing ht hu⟩

/-- Where an expression starts with a brace, the parser does not stop before it. -/
def Goal.Braced (ts : List Token) (next : Lexeme) : Goal → Prop
  | .item .expression | .operand | .primary => ts = [] → next ≠ .mark .openBrace
  | _ => True

theorem Stops.braced {g : Goal} {ts : List Token} {next : Lexeme} {fault : Fault}
    (h : Stops g ts next fault) : g.Braced ts next := by
  induction h with
  | here h =>
    cases h with
    | primary hl =>
      rintro - rfl
      cases hl
    | paren | header => exact nofun
    | _ => trivial
  | inside h _ ih =>
    cases h with
    | operand | primary => exact ih
    | chain first | calls first =>
      obtain ⟨t, ts, rfl, -⟩ := first.opened
      exact nofun
    | paren | block | ifWord | header | body => exact nofun
    | _ => trivial

/-- The lexeme `l'` can come in the place of `l` where the goal starts. -/
def Goal.Admits (g : Goal) (l l' : Lexeme) : Prop :=
  l' = l ∨ l'.Final ∧ (g = .item .expression → l ≠ .mark .openBrace)

theorem Goal.Admits.at {g g' : Goal} {ts : List Token} {l l' : Lexeme} {r : g'.Result}
    (h : g.Admits l l') (hr : Reads g' ts l r) : Reads g' ts l' r :=
  hr.at (h.imp_right And.left)

/-- After some tokens and what the goal `g'` takes, a goal is reached with a few lexemes more. -/
def Goal.Ends (g : Goal) (ts : List Token) (l : Lexeme) (g' : Goal) : Prop :=
  ∃ ls : List Lexeme, (∀ l ∈ ls, l.Spelled) ∧ FinalFirst ls ∧
    ∀ (us vs : List Token) (next : Lexeme) (r : g'.Result), vs.map (·.lexeme) = ls → next.Final →
      g'.Admits l (ahead us (ahead vs next)) → Reads g' us (ahead vs next) r →
        ∃ r, Reads g (ts ++ (us ++ vs)) next r

section

variable {g g' : Goal} {t : Token} {ts us : List Token} {l : Lexeme}

theorem ends_at_once (h : ∀ (us : List Token) (next : Lexeme) (r : g'.Result), next.Final →
    g'.Admits l (ahead us next) → Reads g' us next r → ∃ r, Reads g (ts ++ us) next r) :
    g.Ends ts l g' := by
  refine ⟨[], by simp, by simp [FinalFirst], ?_⟩
  intro us vs next r hvs hnext hl hr
  obtain rfl := List.map_eq_nil_iff.1 hvs
  rw [List.append_nil]
  exact h us next r hnext hl hr

theorem ends_with {l' : Lexeme} (hspelled : l'.Spelled) (hfinal : l'.Final)
    (h : ∀ (us : List Token) (u : Token) (next : Lexeme) (r : g'.Result), u.lexeme = l' →
      next.Final → Reads g' us (ahead [u] next) r → ∃ r, Reads g (ts ++ (us ++ [u])) next r) :
    g.Ends ts l g' := by
  refine ⟨[l'], by simp [hspelled], by simp [FinalFirst, hfinal], ?_⟩
  intro us vs next r hvs hnext _ hr
  obtain ⟨u, rfl, hu⟩ := List.map_eq_singleton_iff.1 hvs
  exact h us u next r hu hnext hr

/-- The right operand of a connective is complete, and so is the chain. -/
theorem reads_link {c : Connective} {left a : Node} {level : Nat} {next : Lexeme}
    (hc : Parser.connective? t.lexeme = some c) (hlevel : level < c.precedence)
    (first : Reads .operand ts (ahead us next) a) {right : Node}
    (rest : Reads (.chain a c.precedence) us next right) (hnext : next.Final) :
    ∃ e, Reads (.chain left level) (t :: (ts ++ us)) next e := by
  have hend := reads_chainEnd (Parser.combine c left right) level hnext
  rw [← List.append_nil us] at first ⊢
  exact ⟨_, .chainMore hc hlevel first rest hend⟩

theorem ends_linkMore {c : Connective} {left a right : Node} {level : Nat}
    (hc : Parser.connective? t.lexeme = some c) (hlevel : level < c.precedence)
    (first : Reads .operand ts (ahead us l) a) (rest : Reads (.chain a c.precedence) us l right) :
    (Goal.chain left level).Ends (t :: (ts ++ us)) l
      (.chain (Parser.combine c left right) level) := by
  refine ends_at_once fun vs next e _ hl hr => ?_
  have hrest := hl.at rest
  have hfirst : Reads .operand ts (ahead (us ++ vs) next) a := by
    rw [ahead_append]
    cases us with
    | nil => exact hl.at first
    | cons u us => exact first
  have hmore := Reads.chainMore hc hlevel hfirst hrest hr
  rw [← List.append_assoc] at hmore
  exact ⟨e, hmore⟩

theorem ends_header {k : Keyword} {i : Item} {u : Token} {names : List Token} {f : Option Text}
    (hk : Heads k i) (ht : t.lexeme = .keyword k) (hf : ReadsName names f)
    (hu : u.lexeme = .mark .openParen) :
    Goal.primary.Ends (t :: (names ++ [u])) l (.items i .parens true) := by
  refine ends_with spelled_filler final_filler fun vs v next xs hv hnext hr => ?_
  obtain ⟨e, he⟩ := reads_filler hv hnext
  obtain ⟨e, he⟩ := hk.reads ht hf hu hr he
  exact ⟨e, by simpa using he⟩

theorem ends_condition {pos : Pos} : (Goal.conditional pos).Ends [] l (.item .expression) := by
  refine ⟨[.keyword .thenWord, filler], by simp [spelled_then, spelled_filler],
    by simp [FinalFirst, final_then], ?_⟩
  intro us vs next c hvs hnext _ hr
  obtain ⟨u, vs, rfl, hu, hvs⟩ := List.map_eq_cons_iff.1 hvs
  obtain ⟨v, rfl, hv⟩ := List.map_eq_singleton_iff.1 hvs
  obtain ⟨e, he⟩ := reads_filler hv hnext
  have hread : Reads (.conditional pos) (us ++ ([u] ++ [v])) next (.branch pos c e .missing) :=
    .withoutElse hr (.word hu _) he hnext.2.2
  exact ⟨_, hread⟩

theorem ends_whenTrue {pos : Pos} {condition : Node}
    (first : Reads (.item .expression) ts (ahead us l) condition) (hthen : ReadsThen us l) :
    (Goal.conditional pos).Ends (ts ++ us) l (.item .expression) := by
  refine ends_at_once fun vs next e hnext hl hr => ?_
  rw [List.append_assoc]
  cases hthen with
  | word ht l => exact ⟨_, .withoutElse first (.word ht _) hr hnext.2.2⟩
  | brace =>
    -- Only an expression that starts with the brace goes without `then`.
    have hahead : ahead vs next = .mark .openBrace := hl.resolve_right fun h => h.2 rfl rfl
    have hfirst : Reads (.item .expression) ts (ahead ([] ++ vs) next) condition := hl.at first
    exact ⟨_, .withoutElse hfirst (hahead ▸ .brace) hr hnext.2.2⟩

theorem ends_whenFalse {pos : Pos} {vs : List Token} {condition whenTrue : Node}
    (first : Reads (.item .expression) ts (ahead (us ++ vs) t.lexeme) condition)
    (hthen : ReadsThen us (ahead vs t.lexeme))
    (branch : Reads (.item .expression) vs t.lexeme whenTrue)
    (ht : t.lexeme = .keyword .elseWord) :
    (Goal.conditional pos).Ends (ts ++ (us ++ (vs ++ [t]))) l (.item .expression) := by
  refine ends_at_once fun ws next e _ _ hr => ?_
  have hfirst : Reads (.item .expression) ts (ahead (us ++ (vs ++ t :: ws)) next) condition := by
    rw [ahead_append] at first
    rw [ahead_append, ahead_append]
    exact first
  have hread : Reads (.conditional pos) (ts ++ (us ++ (vs ++ t :: ws))) next _ :=
    .withElse hfirst hthen branch ht hr
  exact ⟨_, by simpa using hread⟩

end

/-- Each goal is ended once the goal that it goes on with has been reached. -/
theorem Enters.ends {g g' : Goal} {ts : List Token} {l : Lexeme} (h : Enters g ts l g') :
    g.Ends ts l g' := by
  cases h with
  | operand =>
    refine ends_at_once fun us next a hnext _ hr => ?_
    exact ⟨a, by simpa using Reads.expression hr (reads_chainEnd a 0 hnext)⟩
  | chain first => exact ends_at_once fun us next e _ hl hr => ⟨e, .expression (hl.at first) hr⟩
  | link hc hlevel =>
    refine ends_at_once fun us next a hnext _ hr => ?_
    obtain ⟨e, he⟩ := reads_link hc hlevel hr (reads_chainEnd a _ hnext) hnext
    exact ⟨e, by simpa using he⟩
  | linkRest hc hlevel first =>
    exact ends_at_once fun us next e hnext hl hr => reads_link hc hlevel (hl.at first) hr hnext
  | linkMore hc hlevel first rest => exact ends_linkMore hc hlevel first rest
  | arguments ht =>
    refine ends_at_once fun us next args hnext _ hr => ?_
    exact ⟨_, by simpa using Reads.callsMore ht hr (.callsEnd hnext.2.1)⟩
  | callsMore ht list =>
    exact ends_at_once fun us next e _ hl hr => ⟨e, .callsMore ht (hl.at list) hr⟩
  | primary =>
    refine ends_at_once fun us next a hnext _ hr => ?_
    exact ⟨a, by simpa using Reads.operand hr (.callsEnd hnext.2.1)⟩
  | calls first => exact ends_at_once fun us next e _ hl hr => ⟨e, .operand (hl.at first) hr⟩
  | paren ht =>
    refine ends_with (spelled_mark _) (Enclosure.final_stop .parens) fun us u next e hu _ hr => ?_
    rw [ahead, hu] at hr
    exact ⟨e, .paren ht hu hr⟩
  | block ht => exact ends_at_once fun us next body _ _ hr => ⟨_, .block ht hr⟩
  | ifWord ht => exact ends_at_once fun us next e _ _ hr => ⟨e, .ifWord ht hr⟩
  | header hk ht hf hu => exact ends_header hk ht hf hu
  | body hk ht hf hu list =>
    refine ends_at_once fun us next e _ hl hr => ?_
    simpa using hk.reads ht hf hu (hl.at list) hr
  | condition => exact ends_condition
  | whenTrue first hthen => exact ends_whenTrue first hthen
  | whenFalse first hthen branch ht => exact ends_whenFalse first hthen branch ht
  | name =>
    refine ends_at_once fun us next x hnext _ hr => ?_
    cases hr
    exact ⟨_, .undefined fun h => by cases h ▸ hnext.1⟩
  | definition ht => exact ends_at_once fun us next d _ _ hr => ⟨_, .defined ht hr⟩
  | @itemFirst i b l hl =>
    refine ends_with (spelled_mark _) b.final_stop fun us u next x hu _ hr => ?_
    have hread : Reads (.items i b true) (us ++ [u]) next [x] := .itemFirst hr (.close hu)
    exact ⟨_, hread⟩
  | afterFirst first =>
    exact ends_at_once fun us next xs _ hl hr => ⟨_, .itemFirst (hl.at first) hr⟩
  | @itemNext i b t l ht hl =>
    refine ends_with (spelled_mark _) b.final_stop fun us u next x hu _ hr => ?_
    have hread : Reads (.items i b false) (t :: (us ++ [u])) next [x] := .itemNext ht hr (.close hu)
    exact ⟨_, hread⟩
  | afterNext ht first =>
    exact ends_at_once fun us next xs _ hl hr => ⟨_, .itemNext ht (hl.at first) hr⟩

/-- Wherever the parser stops, all goals that are waiting can be reached. -/
theorem Stops.completed {g : Goal} {ts : List Token} {next : Lexeme} {fault : Fault}
    (h : Stops g ts next fault) : ∃ ls : List Lexeme, (∀ l ∈ ls, l.Spelled) ∧
      (ts = [] → FinalFirst ls) ∧ g.Completes ts ls := by
  induction h with
  | here h => exact h.completed
  | @inside g g' ts us next fault henters hstops ih =>
    obtain ⟨ls, hls, hfirst, hcompletes⟩ := ih
    obtain ⟨ms, hms, hlast, hends⟩ := henters.ends
    refine ⟨ls ++ ms, ?_, fun hnil => ?_, ?_⟩
    · exact fun l hl => (List.mem_append.1 hl).elim (hls l) (hms l)
    · have hls := hfirst (List.append_eq_nil_iff.1 hnil).2
      cases ls with
      | nil => exact hlast
      | cons l ls => exact hls
    · intro vs hvs next' hnext'
      obtain ⟨vs, ws, rfl, hvs, hws⟩ := List.map_eq_append_iff.1 hvs
      have hfinal := hlast.ahead hws hnext'
      obtain ⟨r, hr⟩ := hcompletes vs hvs _ hfinal
      have hadmits : g'.Admits (ahead us next) (ahead (us ++ vs) (ahead ws next')) := by
        rw [ahead_append]
        cases us with
        | cons u us => exact .inl rfl
        | nil =>
          refine .inr ⟨(hfirst rfl).ahead hvs hfinal, ?_⟩
          rintro rfl
          exact hstops.braced rfl
      obtain ⟨r, hr⟩ := hends _ ws next' r hws hnext' hadmits hr
      exact ⟨r, by simpa using hr⟩

theorem StopsProgram.completed {ts : List Token} {next : Lexeme} {fault : Fault}
    (h : StopsProgram ts next fault) : ∃ ls : List Lexeme, (∀ l ∈ ls, l.Spelled) ∧
      ∀ us : List Token, us.map (·.lexeme) = ls → ∃ es, ReadsProgram (ts ++ us) es := by
  induction h with
  | expression h =>
    obtain ⟨ls, hls, -, hcompletes⟩ := h.completed
    refine ⟨ls, hls, fun us hus => ?_⟩
    obtain ⟨e, he⟩ := hcompletes us hus .endOfInput final_endOfInput
    exact ⟨[e], .last he⟩
  | @semicolon ts next e h =>
    refine ⟨[], by simp, fun us hus => ?_⟩
    obtain rfl := List.map_eq_nil_iff.1 hus
    rw [List.append_nil]
    exact ⟨[e], .last (h.next final_endOfInput)⟩
  | @rest ts us t next fault e h ht _ ih =>
    obtain ⟨ls, hls, hcompletes⟩ := ih
    refine ⟨ls, hls, fun vs hvs => ?_⟩
    obtain ⟨es, hes⟩ := hcompletes vs hvs
    exact ⟨e :: es, by simpa using ReadsProgram.cons h ht hes⟩

/-! ## Texts -/

/-- Lexemes can be written one after another, each on a line of its own. -/
theorem exists_lexes {ls : List Lexeme} (h : ∀ l ∈ ls, l.Spelled) : ∃ t, Lexes t ls := by
  induction ls with
  | nil => exact ⟨[], .finish .nil⟩
  | cons l ls ih =>
    obtain ⟨⟨w, hw⟩, hls⟩ := List.forall_mem_cons.1 h
    obtain ⟨t, ht⟩ := ih hls
    have hrest : Lexes (Text.newline :: t) ls := Lexes.gap Gap.newline ht
    exact ⟨_, .lexeme .nil hw (detached_newline t l) hrest⟩

namespace Text

/-- The part of a text before a position, where the text starts at `p`; all of it, if there is no
such position in it. -/
def beforeFrom (p target : Pos) : Text → Text
  | [] => []
  | b :: rest => if p = target then [] else b :: beforeFrom (p.next b) target rest

/-- The part of a source before a position. -/
def before (source : Text) (pos : Pos) : Text := beforeFrom Pos.start pos source

end Text

/-- A position is before all those that come later. -/
theorem Pos.after_later (p : Pos) (t : Text) : p.line < (p.after t).line ∨
    (p.after t).line = p.line ∧ (p.after t).column = p.column + t.length := by
  induction t generalizing p with
  | nil => exact .inr ⟨rfl, (Int.add_zero _).symm⟩
  | cons b t ih =>
    have hafter : p.after (b :: t) = (p.next b).after t := rfl
    have hrest := ih (p.next b)
    rw [hafter]
    by_cases hb : b = Text.newline
    · simp only [Pos.next, if_pos hb] at hrest ⊢
      omega
    · simp only [Pos.next, if_neg hb, List.length_cons] at hrest ⊢
      omega

theorem Text.beforeFrom_after (p : Pos) (u v : Text) : beforeFrom p (p.after u) (u ++ v) = u := by
  induction u generalizing p with
  | nil =>
    cases v with
    | nil => rfl
    | cons b v => exact if_pos rfl
  | cons b u ih =>
    have hne : p ≠ p.after (b :: u) := by
      intro heq
      rcases p.after_later (b :: u) with h | ⟨-, h⟩
      · rw [← heq] at h
        exact Int.lt_irrefl _ h
      · rw [← heq, List.length_cons] at h
        omega
    rw [List.cons_append, beforeFrom, if_neg hne]
    exact congrArg (b :: ·) (ih (p.next b))

theorem Text.before_eq {source u v : Text} (h : source = u ++ v) :
    source.before (Pos.start.after u) = u := by
  rw [h]
  exact beforeFrom_after Pos.start u v

theorem Lexeme.describe_eq_iff {l : Lexeme} :
    l.describe = bytes "end of input" ↔ l = .endOfInput := by
  by_cases hl : l = .endOfInput
  · rw [hl]
    exact ⟨fun _ => rfl, fun _ => rfl⟩
  refine ⟨fun h => ?_, fun h => absurd h hl⟩
  have hdescribe : l.describe = l.kind ++ bytes " " ++ Quoted.text l.literal := by
    cases l with
    | endOfInput => exact absurd rfl hl
    | _ => rfl
  -- No other kind of lexeme starts with this letter.
  obtain ⟨b, rest, hkind, hb⟩ : ∃ b rest, l.kind = b :: rest ∧ b ≠ 101 := by
    cases l with
    | endOfInput => exact absurd rfl hl
    | _ => exact ⟨_, _, rfl, by decide⟩
  rw [hdescribe, hkind] at h
  have hfirst : bytes "end of input" = 101 :: bytes "nd of input" := by decide
  rw [hfirst] at h
  exact absurd (List.cons.inj h).1 hb

namespace Cursor

/-- The token at its own position is scanned again. -/
theorem scan_again {c c' : Cursor} {t : Token} (h : c.scan = (.ok t, c')) :
    ∃ g v d, c.rest = g ++ v ∧ t.pos = c.pos.after g ∧ Gap (g ++ [Text.newline]) ∧
      (⟨v, t.pos⟩ : Cursor).scan = (.ok t, d) ∧ (t.lexeme = .endOfInput → v = []) := by
  by_cases ht : t.lexeme = .endOfInput
  · obtain ⟨l, pos⟩ := t
    cases ht
    obtain ⟨hpos, hgap⟩ := scan_eq_finish h
    exact ⟨c.rest, [], ⟨[], pos⟩, (List.append_nil _).symm, hpos, hgap, rfl, fun _ => rfl⟩
  · obtain ⟨g, w, hrest, hg, hw, hapart, hpos, -⟩ := scan_eq_token h ht
    have hscan := scan_token .nil hw hapart t.pos
    exact ⟨g, w ++ c'.rest, _, hrest, hpos, hg.append .newline, hscan, fun h => absurd h ht⟩

/-- What comes before a place is what comes before its position. -/
theorem Takes.before {source w g v : Text} {ts : List Token} {c : Cursor}
    (h : (ofSource source).Takes ts c) (hrest : c.rest = g ++ v) (hsource : source = w ++ g ++ v) :
    source.before (c.pos.after g) = w ++ g := by
  have hstart : (ofSource source).In source := ⟨[], rfl, rfl⟩
  obtain ⟨w', hsource', hpos⟩ := h.in hstart
  have hw : w' = w := by
    rw [hsource', hrest, List.append_assoc] at hsource
    exact List.append_cancel_right hsource
  rw [hpos, hw, ← Pos.after_append]
  exact Text.before_eq hsource

end Cursor

namespace Stream

/-- Where the tokens before a place in a source end. -/
theorem takes_of_ofSource {source : Text} {ts : List Token} {s : Stream}
    (h : ofSource source = prepend ts s) : ∃ c n, (Cursor.ofSource source).Takes ts c ∧
      c.rest.length < n ∧ s = scanWithin n c :=
  takes_of_scanWithin h (Nat.lt_succ_self _)

theorem peek_scanWithin {c : Cursor} {n : Nat} (hn : c.rest.length < n) :
    (scanWithin n c).peek = c.scan.1 := by
  obtain ⟨n, rfl⟩ : ∃ n', n = n' + 1 := ⟨n - 1, by omega⟩
  rcases scan_cases c with ⟨pos, d, hc⟩ | ⟨u, d, hc, hu⟩ | ⟨e, d, hc⟩
  · rw [scanWithin_finish hc, hc]
    rfl
  · rw [scanWithin_token hc hu, hc]
    rfl
  · rw [scanWithin_broken hc, hc]
    rfl

theorem eq_broken {s : Stream} {e : Error} (h : s.last = .error e) :
    ∃ ts, s = prepend ts (.broken e) := by
  induction s with
  | token t rest ih =>
    obtain ⟨ts, rfl⟩ := ih h
    exact ⟨t :: ts, rfl⟩
  | finish pos => cases h
  | broken e' =>
    cases h
    exact ⟨[], rfl⟩

/-- The tokens of a source are those of the source with more lines. -/
theorem ofSource_append_newline {source : Text} {ts : List Token} {c : Cursor}
    (h : (Cursor.ofSource source).Takes ts c) (t : Text) : ∃ n,
      c.rest.length + (t.length + 1) < n ∧ ofSource (source ++ Text.newline :: t) =
        prepend ts (scanWithin n ⟨c.rest ++ Text.newline :: t, c.pos⟩) := by
  obtain ⟨w, hw, htakes⟩ := h.newline (List.append_nil c.rest).symm t
  have hsource : source = w ++ c.rest := by
    rw [List.append_nil] at hw
    exact hw
  obtain ⟨n, hn, hstream⟩ := scanWithin_takes htakes (Nat.lt_succ_self _)
  refine ⟨n, by simpa using hn, ?_⟩
  rw [hsource]
  exact hstream

end Stream

namespace Program

theorem parse_of_scans {source : Text} {ts : List Token} {es : List Node}
    (h : (Cursor.ofSource source).Scans ts) (hes : ReadsProgram ts es) :
    ∃ p, parse source = .ok p := by
  obtain ⟨pos, hstream⟩ := ofSource_eq_iff.2 h
  exact ⟨⟨firstPos pos ts, es⟩, parse_eq_ok_iff.2 ⟨ts, pos, hstream, hes, rfl⟩⟩

theorem error_of_stops {ts : List Token} {next : Lexeme} {fault : Fault}
    (h : StopsProgram ts next fault) (pos : Pos) :
    (fault.error pos).diagnostic? = some (fault.diagnostic pos) := by
  obtain ⟨-, hcause, -⟩ := h.reports
  rw [Fault.error, hcause]
  rfl

theorem blames_parse (source : Text) :
    (Stream.ofSource source).Blames StopsProgram (parse source) :=
  blames_ofStream (proper_scanWithin _ _)

/-- An error that is not about the end of the source stays when lines are added. -/
theorem parse_append_newline {source : Text} {e : Error} (h : parse source = .error e)
    (he : e.isIncomplete = false) (t : Text) :
    parse (source ++ Text.newline :: t) = .error e := by
  have hblames := blames_parse source
  rw [h] at hblames
  rcases hblames with hlast | ⟨ts, s, u, fault, hs, hu, hstops, rfl⟩
  · -- The scanner finds the same fault after the same tokens, so that nothing changes at all.
    have hopen : ∀ rest pos, e ≠ (Fault.unterminatedString rest).error pos := by
      rintro rest pos rfl
      have hmessage : (bytes "unterminated string").startsWith (bytes "unterminated") = true := by
        decide
      exact absurd (hmessage.symm.trans he) (by decide)
    obtain ⟨ts, hts⟩ := eq_broken hlast
    obtain ⟨c, n, htakes, hn, hbroken⟩ := takes_of_ofSource hts
    have hscan : c.scan = (.error e, c.scan.2) :=
      Prod.ext ((peek_scanWithin hn).symm.trans (congrArg peek hbroken.symm)) rfl
    obtain ⟨d, hscan'⟩ := Cursor.scan_error_append hscan hopen t
    obtain ⟨m, hm, hstream⟩ := ofSource_append_newline htakes t
    obtain ⟨m, rfl⟩ : ∃ m', m = m' + 1 := ⟨m - 1, by omega⟩
    rw [scanWithin_broken hscan', ← hts] at hstream
    exact (congrArg ofStream hstream).trans h
  · -- The parser has seen no more than the token at which it stops.
    have hne : u.lexeme ≠ .endOfInput := by
      intro hend
      obtain ⟨hcode, -, hfound⟩ := hstops.reports
      rw [Error.isIncomplete, error_of_stops hstops] at he
      simp only [Fault.diagnostic, hcode, hfound, hend] at he
      exact absurd he (by decide)
    obtain ⟨s, rfl⟩ := eq_token hu hne
    have htokens : Stream.ofSource source = prepend (ts ++ [u]) s := by
      rw [hs, prepend_append]
      rfl
    obtain ⟨c, n, htakes, -, -⟩ := takes_of_ofSource htokens
    obtain ⟨m, -, hstream⟩ := ofSource_append_newline htakes t
    rw [prepend_append] at hstream
    exact (congrArg ofStream hstream).trans (ofStream_of_stops hstops rfl)

theorem parse_unopened_newline : ∃ e, e.isIncomplete = false ∧
    parse (bytes "x )" ++ Text.newline :: bytes "y") = .error e := by
  have h : parse (bytes "x )") =
      .error ((Lexeme.missing (.mark .semicolon) (.mark .closeParen)).error ⟨1, 3⟩) := rfl
  exact ⟨_, by decide, parse_append_newline h (by decide) (bytes "y")⟩

/-- What the parser has taken becomes a program, in the place of the token at which it stops. -/
theorem exists_completion {source g v : Text} {ts : List Token} {next : Lexeme} {fault : Fault}
    {c : Cursor} (h : StopsProgram ts next fault) (htakes : (Cursor.ofSource source).Takes ts c)
    (hrest : c.rest = g ++ v) (hgap : Gap (g ++ [Text.newline])) :
    ∃ w, source = w ++ g ++ v ∧ ∃ t p, parse (w ++ g ++ Text.newline :: t) = .ok p := by
  obtain ⟨ls, hls, hcompletes⟩ := h.completed
  obtain ⟨t, ht⟩ := exists_lexes hls
  obtain ⟨w, hw, htakes'⟩ := htakes.newline hrest t
  have hlexes : Lexes (g ++ Text.newline :: t) ls := by simpa using Lexes.gap hgap ht
  obtain ⟨us, hus, hmap⟩ := hlexes.scans c.pos
  obtain ⟨es, hes⟩ := hcompletes us hmap
  exact ⟨w, hw, t, parse_of_scans (htakes'.scans hus) hes⟩

/-- A parse error is at a token before which the source could still become a program. -/
theorem parse_error_completable {source : Text} {e : Error} {d : Diagnostic}
    (h : parse source = .error e) (hd : e.diagnostic? = some d) (hcode : d.code = .parse) :
    (∃ v t c, source = source.before d.pos ++ v ∧ (⟨v, d.pos⟩ : Cursor).scan = (.ok t, c) ∧
        t.pos = d.pos ∧ t.lexeme.describe = d.found) ∧
      (d.found = bytes "end of input" → source.before d.pos = source) ∧
      ∃ t p, parse (source.before d.pos ++ Text.newline :: t) = .ok p := by
  have hblames := blames_parse source
  rw [h] at hblames
  rcases hblames with hlast | ⟨ts, s, u, fault, hs, hu, hstops, rfl⟩
  · have hlex := code_last_scanWithin hlast
    rw [Error.code?, hd, Option.map_some, hcode] at hlex
    cases hlex
  · rw [error_of_stops hstops] at hd
    cases hd
    obtain ⟨c, n, htakes, hn, rfl⟩ := takes_of_ofSource hs
    have hscan : c.scan = (.ok u, c.scan.2) := Prod.ext ((peek_scanWithin hn).symm.trans hu) rfl
    obtain ⟨g, v, d, hrest, hpos, hgap, hagain, hend⟩ := Cursor.scan_again hscan
    obtain ⟨w, hsource, hprogram⟩ := exists_completion hstops htakes hrest hgap
    have hbefore : source.before u.pos = w ++ g := hpos ▸ htakes.before hrest hsource
    have hplace : (fault.diagnostic u.pos).pos = u.pos := rfl
    have hfound : (fault.diagnostic u.pos).found = u.lexeme.describe := hstops.reports.2.2
    rw [hplace, hfound, hbefore]
    refine ⟨⟨v, u, d, hsource, hagain, rfl, rfl⟩, fun hdescribe => ?_, hprogram⟩
    rw [hsource, hend (Lexeme.describe_eq_iff.1 hdescribe), List.append_nil]

theorem parse_thenless_completable :
    ∃ t p, parse (bytes "if x " ++ Text.newline :: t) = .ok p := by
  have h : parse (bytes "if x )") =
      .error ((Lexeme.missing (.keyword .thenWord) (.mark .closeParen)).error ⟨1, 6⟩) := rfl
  have hbefore : (bytes "if x )").before ⟨1, 6⟩ = bytes "if x " := by decide
  rw [← hbefore]
  exact (parse_error_completable h rfl rfl).2.2

end Program

end Mycel

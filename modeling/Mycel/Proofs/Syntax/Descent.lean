import Mycel.Proofs.Syntax.Acceptance

/-!
# The descent of the parser

`Goal.step` is what one function of the parser does by itself: the functions that it calls are a
parameter. So `Goal.within` can let calls descend to some depth only, and leave open what a call
below it would do. What a function of the parser takes is never the end of the input, and at depths
beyond four times the number of tokens no call is made, so that the answer is that of the parser
(`Goal.within_eq_parse`). The loops of the parser are made of turns; a turn that is not the last one
takes a token (`Program.descent`).
-/

namespace Mycel

open Mycel.Stream

/-- What the functions of the parser answer. -/
abbrev Descent : Type := (g : Goal) → Stream → Except Error (g.Result × Stream)

namespace Parser

/-- One turn of the loop over a list: the item that it adds, or nothing if it was the last turn. -/
def listTurn (call : Descent) (i : Item) (b : Enclosure) (first : Bool) (s : Stream) :
    Except Error (Option i.Result × Stream) := do
  if endsList b.stop (← s.peek).lexeme then return (none, ← s.expect (.mark b.stop))
  let s ← if first then pure s else s.expect (.mark b.separator)
  if endsList b.stop (← s.peek).lexeme then return (none, ← s.expect (.mark b.stop))
  let (x, s) ← call (.item i) s
  return (some x, s)

/-- One turn of the loop over the argument lists after `callee`: the call that it makes. -/
def callTurn (call : Descent) (callee : Node) (s : Stream) :
    Except Error (Option Node × Stream) := do
  if (← s.peek).lexeme = .mark .openParen then
    let (args, s) ← call (.items .expression .parens true) s.tail
    return (some (.call callee.pos callee args), s)
  else return (none, s)

/-- One turn of the loop over the expressions of a program: the expression that it adds. -/
def programTurn (call : Descent) (s : Stream) : Except Error (Option Node × Stream) := do
  if (← s.peek).lexeme = .endOfInput then return (none, s)
  let (e, s) ← call (.item .expression) s
  if (← s.peek).lexeme = .endOfInput then return (some e, s)
  return (some e, ← s.expect (.mark .semicolon))

end Parser

/-- A function of the parser, where `call` answers the calls that it makes. Going on with a loop
counts as a call. -/
def Goal.step (call : Descent) : Descent
  | .item .expression, s => do
    let (node, s) ← call .operand s
    let (node, s) ← call (.chain node 0) s
    call (.calls node) s
  | .item .name, s => Parser.name s
  | .item .definition, s => do
    let (x, s) ← Parser.name s
    if (← s.peek).lexeme = .operator (bytes "=") then
      let (d, s) ← call (.item .expression) s.tail
      return ((x, d), s)
    else return ((x, .missing), s)
  | .items i b first, s => do
    match ← Parser.listTurn call i b first s with
    | (none, s) => return ([], s)
    | (some x, s) =>
      let (xs, s) ← call (.items i b false) s
      return (x :: xs, s)
  | .chain left level, s => do
    match Parser.connective? (← s.peek).lexeme with
    | none => return (left, s)
    | some c =>
      if c.precedence ≤ level then return (left, s)
      let (right, s) ← call .operand s.tail
      let (right, s) ← call (.chain right c.precedence) s
      call (.chain (Parser.combine c left right) level) s
  | .calls callee, s => do
    match ← Parser.callTurn call callee s with
    | (none, s) => return (callee, s)
    | (some node, s) => call (.calls node) s
  | .operand, s => do
    let (node, s) ← call .primary s
    call (.calls node) s
  | .primary, s => do
    let t ← s.peek
    match t.lexeme with
    | .mark .openParen =>
      let (node, s) ← call (.item .expression) s.tail
      return (node, ← s.expect (.mark .closeParen))
    | .mark .openBrace =>
      let (body, s) ← call (.items .expression .braces true) s.tail
      return (Parser.block t.pos body, s)
    | .keyword .ifWord => call (.conditional t.pos) s.tail
    | .keyword .trueWord => return (.bool t.pos true, s.tail)
    | .keyword .falseWord => return (.bool t.pos false, s.tail)
    | .keyword .lambdaWord =>
      let (f, s) ← Parser.optionalName s.tail
      let s ← s.expect (.mark .openParen)
      let (params, s) ← call (.items .name .parens true) s
      let (body, s) ← call (.item .expression) s
      return (.lambda t.pos f params body, s)
    | .keyword .letWord =>
      let (f, s) ← Parser.optionalName s.tail
      let s ← s.expect (.mark .openParen)
      let (bindings, s) ← call (.items .definition .parens true) s
      let (body, s) ← call (.item .expression) s
      return (Parser.binding t.pos f bindings body, s)
    | .identifier x => return (.identifier t.pos x, s.tail)
    | .number _ x => return (.number t.pos x, s.tail)
    | .string x => return (.string t.pos x, s.tail)
    | _ => throw s.unexpected
  | .conditional pos, s => do
    let (condition, s) ← call (.item .expression) s
    let s ← if (← s.peek).lexeme = .mark .openBrace then pure s else s.expect (.keyword .thenWord)
    let (whenTrue, s) ← call (.item .expression) s
    if (← s.peek).lexeme = .keyword .elseWord then
      let (whenFalse, s) ← call (.item .expression) s.tail
      return (.branch pos condition whenTrue whenFalse, s)
    else return (.branch pos condition whenTrue .missing, s)

/-- The parser with calls to depth `n`, where `deep` answers those below. -/
def Goal.within (deep : Descent) : Nat → Descent
  | 0 => deep
  | n + 1 => Goal.step (Goal.within deep n)

/-! ## The parser as a descent -/

section

variable (n k : Nat)

theorem Parser.delimited_succ (i : Item) (b : Enclosure) (first : Bool) (s : Stream) :
    (Goal.items i b first).parse n (k + 1) s =
      Goal.step (fun g => g.parse n k) (.items i b first) s := by
  show Parser.delimited (i.parse n) b.separator b.stop (k + 1) first s = _
  simp only [Parser.delimited, Goal.step, Parser.listTurn, bind_assoc]
  refine bind_congr fun t => ?_
  split_ifs
  · symm
    exact bind_assoc _ _ _
  · simp only [bind_assoc, pure_bind]
    refine bind_congr fun t => ?_
    split_ifs <;> symm <;> exact bind_assoc _ _ _
  · simp only [bind_assoc]
    refine bind_congr fun s => bind_congr fun t => ?_
    split_ifs <;> symm <;> exact bind_assoc _ _ _

theorem Parser.calls_succ (callee : Node) (s : Stream) :
    (Goal.calls callee).parse (n + 1) k s =
      Goal.step (fun g => g.parse n n) (.calls callee) s := by
  show Parser.calls (n + 1) callee s = _
  simp only [Parser.calls, Goal.step, Parser.callTurn, bind_assoc]
  refine bind_congr fun t => ?_
  split_ifs <;> simp only [bind_assoc, pure_bind] <;> rfl

theorem Goal.parse_succ (g : Goal) (hg : ∀ i b first, g ≠ .items i b first) (s : Stream) :
    g.parse (n + 1) k s = Goal.step (fun g => g.parse n n) g s := by
  cases g with
  | items i b first => exact absurd rfl (hg i b first)
  | item i => cases i <;> rfl
  | calls callee => exact Parser.calls_succ n k callee s
  | _ => rfl

end

/-! ## What is taken -/

namespace Stream

/-- What is left when at least `n` tokens are taken, none of which says that the input ends. A
stream can go on after a token that says so; hence it would be seen if that one were taken. -/
def Leaves (s : Stream) (n : Nat) (rest : Stream) : Prop :=
  ∃ ts, s = prepend ts rest ∧ n ≤ ts.length ∧ ∀ t ∈ ts, t.lexeme ≠ .endOfInput

namespace Leaves

variable {s rest : Stream} {m n : Nat}

theorem refl (s : Stream) : s.Leaves 0 s := ⟨[], rfl, Nat.le_refl 0, List.forall_mem_nil _⟩

theorem cons {t : Token} (ht : t.lexeme ≠ .endOfInput) (h : s.Leaves n rest) :
    (token t s).Leaves (n + 1) rest := by
  obtain ⟨ts, rfl, hn, hts⟩ := h
  exact ⟨t :: ts, rfl, Nat.succ_le_succ hn, List.forall_mem_cons.2 ⟨ht, hts⟩⟩

theorem trans {end' : Stream} (h : s.Leaves m rest) (h' : rest.Leaves n end') :
    s.Leaves (m + n) end' := by
  obtain ⟨ts, rfl, hm, hts⟩ := h
  obtain ⟨us, rfl, hn, hus⟩ := h'
  refine ⟨ts ++ us, (prepend_append ts us _).symm, ?_, List.forall_mem_append.2 ⟨hts, hus⟩⟩
  rw [List.length_append]
  exact Nat.add_le_add hm hn

theorem mono (h : s.Leaves n rest) (hm : m ≤ n) : s.Leaves m rest := by
  obtain ⟨ts, hs, hn, hts⟩ := h
  exact ⟨ts, hs, Nat.le_trans hm hn, hts⟩

theorem length_le (h : s.Leaves n rest) : rest.length + n ≤ s.length := by
  obtain ⟨ts, rfl, hn, -⟩ := h
  rw [length_prepend]
  omega

end Leaves

variable {α β : Type}

/-- Two answers are the same, and a result `r` takes at least `least r` tokens. -/
def Concur (s : Stream) (least : α → Nat) (x y : Except Error (α × Stream)) : Prop :=
  x = y ∧ ∀ r rest, y = .ok (r, rest) → s.Leaves (least r) rest

namespace Concur

variable {s : Stream} {m k : Nat} {j : α → Nat} {x y : Except Error (α × Stream)}

theorem done (s : Stream) {r : α} (hj : j r = 0) : s.Concur j (.ok (r, s)) (.ok (r, s)) := by
  refine ⟨rfl, fun r' rest h => ?_⟩
  cases h
  exact hj ▸ .refl s

theorem error (e : Error) : s.Concur j (.error e) (.error e) := ⟨rfl, nofun⟩

theorem peek {f g : Token → Except Error (α × Stream)}
    (h : ∀ t, s.peek = .ok t → s.Concur j (f t) (g t)) :
    s.Concur j (s.peek >>= f) (s.peek >>= g) := by
  cases hs : s.peek with
  | error e => exact error e
  | ok t => exact h t hs

/-- One function after another. The second one has fewer tokens by those that the first one took. -/
theorem andThen {f g : α × Stream → Except Error (β × Stream)} (hk : ∀ r, k ≤ j r)
    (h : s.Concur j x y)
    (hf : ∀ (r : α) (rest : Stream), rest.length + j r ≤ s.length →
      rest.Concur (fun _ => 0) (f (r, rest)) (g (r, rest))) :
    s.Concur (fun _ => k) (x >>= f) (y >>= g) := by
  obtain ⟨rfl, hy⟩ := h
  cases x with
  | error e => exact error e
  | ok p =>
    obtain ⟨r, rest⟩ := p
    have hleaves := hy r rest rfl
    obtain ⟨heq, hrest⟩ := hf r rest hleaves.length_le
    exact ⟨heq, fun z rest' hz => (hleaves.trans (hrest z rest' hz)).mono (hk r)⟩

theorem bind {f g : α × Stream → Except Error (β × Stream)} (hk : k ≤ m)
    (h : s.Concur (fun _ => m) x y)
    (hf : ∀ (r : α) (rest : Stream), rest.length + m ≤ s.length →
      rest.Concur (fun _ => 0) (f (r, rest)) (g (r, rest))) :
    s.Concur (fun _ => k) (x >>= f) (y >>= g) :=
  andThen (fun _ => hk) h hf

/-- The next token has been looked at, and it is taken. -/
theorem tail {t : Token} (hk : k ≤ 1) (ht : s.peek = .ok t) (hne : t.lexeme ≠ .endOfInput)
    (h : s.tail.length < s.length → s.tail.Concur (fun _ => 0) x y) :
    s.Concur (fun _ => k) x y := by
  obtain ⟨rest, rfl⟩ := eq_token ht hne
  obtain ⟨heq, hrest⟩ := h (Nat.lt_succ_self _)
  exact ⟨heq, fun z rest' hz => ((hrest z rest' hz).cons hne).mono hk⟩

theorem expect {l : Lexeme} {f g : Stream → Except Error (α × Stream)} (hk : k ≤ 1)
    (hl : l ≠ .endOfInput)
    (h : ∀ rest : Stream, rest.length < s.length → rest.Concur (fun _ => 0) (f rest) (g rest)) :
    s.Concur (fun _ => k) (s.expect l >>= f) (s.expect l >>= g) := by
  unfold Stream.expect
  rw [bind_assoc, bind_assoc]
  refine peek fun t ht => ?_
  split_ifs with heq
  · exact tail hk ht (heq ▸ hl) (h s.tail)
  · exact error _

theorem zero (h : s.Concur j x y) : s.Concur (fun _ => 0) x y :=
  ⟨h.1, fun z rest hy => (h.2 z rest hy).mono (Nat.zero_le _)⟩

/-- What takes a token may be a turn of a loop, the last one or not. -/
theorem turn {x y : Except Error (Option α × Stream)} (h : s.Concur (fun _ => 1) x y) :
    s.Concur (fun z => z.isSome.toNat) x y :=
  ⟨h.1, fun z rest hy => (h.2 z rest hy).mono (Bool.toNat_le _)⟩

/-- What a loop does after a turn. It goes on with fewer tokens. -/
theorem loop {x y : Except Error (Option α × Stream)}
    {f g : Option α × Stream → Except Error (β × Stream)}
    (h : s.Concur (fun z => z.isSome.toNat) x y)
    (hlast : ∀ rest : Stream, rest.Concur (fun _ => 0) (f (none, rest)) (g (none, rest)))
    (hmore : ∀ (r : α) (rest : Stream), rest.length < s.length →
      rest.Concur (fun _ => 0) (f (some r, rest)) (g (some r, rest))) :
    s.Concur (fun _ => 0) (x >>= f) (y >>= g) := by
  refine andThen (fun _ => Nat.zero_le _) h fun r rest hrest => ?_
  cases r with
  | none => exact hlast rest
  | some r => exact hmore r rest hrest

end Concur

end Stream

theorem concur_name (s : Stream) : s.Concur (fun _ => 1) (Parser.name s) (Parser.name s) := by
  unfold Parser.name
  refine Concur.peek fun t ht => ?_
  split
  · rename_i x hx
    exact Concur.tail (Nat.le_refl 1) ht (by simp [hx]) fun _ => .done _ rfl
  · exact .error _

theorem concur_optionalName (s : Stream) :
    s.Concur (fun _ => 0) (Parser.optionalName s) (Parser.optionalName s) := by
  unfold Parser.optionalName
  refine Concur.peek fun t ht => ?_
  split
  · rename_i x hx
    exact Concur.tail (Nat.zero_le 1) ht (by simp [hx]) fun _ => .done _ rfl
  · exact .done s rfl

/-! ## Steps -/

/-- How many tokens a result takes at least. -/
def Goal.least : Goal → Nat
  | .chain _ _ | .calls _ => 0
  | _ => 1

/-- What has to be added to four times the number of tokens, for the depth of calls. -/
def Goal.rank : Goal → Nat
  | .items _ _ _ => 4
  | g => g.height

theorem Goal.rank_item (i : Item) : (Goal.item i).rank ≤ 3 := Goal.height_item i

section

variable {call call' : Descent} {s : Stream} {n : Nat}
  (ih : ∀ (g : Goal) (s : Stream), 4 * s.length + g.rank < n →
    s.Concur (fun _ => g.least) (call g s) (call' g s))

include ih

theorem concur_listTurn (i : Item) (b : Enclosure) (first : Bool) (hn : 4 * s.length + 4 ≤ n) :
    s.Concur (fun _ => 1) (Parser.listTurn call i b first s)
      (Parser.listTurn call' i b first s) := by
  have hrank := Goal.rank_item i
  have hclose : ∀ (s : Stream) (k : Nat), k ≤ 1 → s.Concur (fun _ => k)
      (s.expect (.mark b.stop) >>= fun s => pure ((none : Option i.Result), s))
      (s.expect (.mark b.stop) >>= fun s => pure (none, s)) :=
    fun s k hk => Concur.expect hk nofun fun rest _ => .done rest rfl
  have hitem : ∀ (s : Stream) (k : Nat), k ≤ 1 → 4 * s.length + 3 < n → s.Concur (fun _ => k)
      (call (.item i) s >>= fun x => pure (some x.1, x.2))
      (call' (.item i) s >>= fun x => pure (some x.1, x.2)) := fun s k hk hs =>
    Concur.bind hk (ih (.item i) s (by omega)) fun x rest _ => .done rest rfl
  simp only [Parser.listTurn]
  refine Concur.peek fun t ht => ?_
  split_ifs
  · exact hclose s 1 (Nat.le_refl 1)
  · refine Concur.peek fun t ht => ?_
    split_ifs
    · exact hclose s 1 (Nat.le_refl 1)
    · exact hitem s 1 (Nat.le_refl 1) (by omega)
  · refine Concur.expect (Nat.le_refl 1) nofun fun rest hrest => Concur.peek fun t ht => ?_
    split_ifs
    · exact hclose rest 0 (Nat.zero_le 1)
    · exact hitem rest 0 (Nat.zero_le 1) (by omega)

theorem concur_callTurn (callee : Node) (hn : 4 * s.length + 1 ≤ n) :
    s.Concur (fun x => x.isSome.toNat) (Parser.callTurn call callee s)
      (Parser.callTurn call' callee s) := by
  simp only [Parser.callTurn]
  refine Concur.peek fun t ht => ?_
  split_ifs with hopen
  · refine Concur.turn (Concur.tail (Nat.le_refl 1) ht (by simp [hopen]) fun hs => ?_)
    have hitems := ih (.items .expression .parens true) s.tail (by show _ + 4 < n; omega)
    exact Concur.bind (Nat.zero_le _) hitems fun args rest _ => .done rest rfl
  · exact .done s rfl

theorem concur_programTurn (hn : 4 * s.length + 3 < n) :
    s.Concur (fun x => x.isSome.toNat) (Parser.programTurn call s)
      (Parser.programTurn call' s) := by
  simp only [Parser.programTurn]
  refine Concur.peek fun t ht => ?_
  split_ifs
  · exact .done s rfl
  · refine Concur.turn (Concur.bind (Nat.le_refl 1) (ih (.item .expression) s hn) ?_)
    refine fun e rest _ => Concur.peek fun t ht => ?_
    split_ifs
    · exact .done rest rfl
    · exact Concur.expect (Nat.zero_le 1) nofun fun rest _ => .done rest rfl

theorem concur_expression (hn : 4 * s.length + 3 ≤ n) :
    s.Concur (fun _ => 1) (Goal.step call (.item .expression) s)
      (Goal.step call' (.item .expression) s) := by
  have hoperand := ih .operand s (by show _ + 2 < n; omega)
  refine Concur.bind (Nat.le_refl 1) hoperand fun node s hs => ?_
  have hchain := ih (.chain node 0) s (by show _ + 1 < n; omega)
  refine Concur.bind (Nat.le_refl 0) hchain fun node s hs' => ?_
  exact ih (.calls node) s (by show _ + 1 < n; omega)

theorem concur_definition (hn : 4 * s.length + 1 ≤ n) :
    s.Concur (fun _ => 1) (Goal.step call (.item .definition) s)
      (Goal.step call' (.item .definition) s) := by
  refine Concur.bind (Nat.le_refl 1) (concur_name s) fun x s hs => Concur.peek fun t ht => ?_
  split_ifs with heq
  · refine Concur.tail (Nat.zero_le 1) ht (by simp [heq]) fun hs' => ?_
    have hexpression := ih (.item .expression) s.tail (by show _ + 3 < n; omega)
    exact Concur.bind (Nat.zero_le _) hexpression fun d rest _ => .done rest rfl
  · exact .done s rfl

theorem concur_items (i : Item) (b : Enclosure) (first : Bool) (hn : 4 * s.length + 4 ≤ n) :
    s.Concur (fun _ => 1) (Goal.step call (.items i b first) s)
      (Goal.step call' (.items i b first) s) := by
  refine Concur.bind (Nat.le_refl 1) (concur_listTurn ih i b first hn) fun x rest hrest => ?_
  cases x with
  | none => exact .done rest rfl
  | some x =>
    have hitems := ih (.items i b false) rest (by show _ + 4 < n; omega)
    exact Concur.bind (Nat.zero_le _) hitems fun xs rest _ => .done rest rfl

theorem concur_chain (left : Node) (level : Nat) (hn : 4 * s.length + 1 ≤ n) :
    s.Concur (fun _ => 0) (Goal.step call (.chain left level) s)
      (Goal.step call' (.chain left level) s) := by
  refine Concur.peek fun t ht => ?_
  cases hc : Parser.connective? t.lexeme with
  | none => exact .done s rfl
  | some c =>
    simp only
    split_ifs
    · exact .done s rfl
    · have hne : t.lexeme ≠ .endOfInput := fun h => by
        rw [h] at hc
        cases hc
      refine Concur.tail (Nat.zero_le 1) ht hne fun hs => ?_
      have hoperand := ih .operand s.tail (by show _ + 2 < n; omega)
      refine Concur.bind (Nat.zero_le _) hoperand fun right s hs => ?_
      have hchain := ih (.chain right c.precedence) s (by show _ + 1 < n; omega)
      refine Concur.bind (Nat.le_refl 0) hchain fun right s hs => ?_
      exact ih (.chain _ level) s (by show _ + 1 < n; omega)

theorem concur_calls (callee : Node) (hn : 4 * s.length + 1 ≤ n) :
    s.Concur (fun _ => 0) (Goal.step call (.calls callee) s)
      (Goal.step call' (.calls callee) s) := by
  refine Concur.loop (concur_callTurn ih callee hn) (fun rest => .done rest rfl) ?_
  exact fun node rest hrest => ih (.calls node) rest (by show _ + 1 < n; omega)

theorem concur_operand (hn : 4 * s.length + 2 ≤ n) :
    s.Concur (fun _ => 1) (Goal.step call .operand s) (Goal.step call' .operand s) := by
  have hprimary := ih .primary s (by show _ + 1 < n; omega)
  refine Concur.bind (Nat.le_refl 1) hprimary fun node s hs => ?_
  exact ih (.calls node) s (by show _ + 1 < n; omega)

theorem concur_conditional (pos : Pos) (hn : 4 * s.length + 4 ≤ n) :
    s.Concur (fun _ => 1) (Goal.step call (.conditional pos) s)
      (Goal.step call' (.conditional pos) s) := by
  have hcondition := ih (.item .expression) s (by show _ + 3 < n; omega)
  refine Concur.bind (Nat.le_refl 1) hcondition fun condition s hs => Concur.peek fun t ht => ?_
  have hbranches : ∀ s' : Stream, s'.length ≤ s.length → s'.Concur (fun _ => 0)
      (call (.item .expression) s' >>= fun x => x.2.peek >>= fun t =>
        if t.lexeme = .keyword .elseWord then
          call (.item .expression) x.2.tail >>= fun y =>
            pure (Node.branch pos condition x.1 y.1, y.2)
        else pure (Node.branch pos condition x.1 .missing, x.2))
      (call' (.item .expression) s' >>= fun x => x.2.peek >>= fun t =>
        if t.lexeme = .keyword .elseWord then
          call' (.item .expression) x.2.tail >>= fun y =>
            pure (Node.branch pos condition x.1 y.1, y.2)
        else pure (Node.branch pos condition x.1 .missing, x.2)) := by
    intro s' hs'
    have htrue := ih (.item .expression) s' (by show _ + 3 < n; omega)
    refine Concur.bind (Nat.zero_le _) htrue fun whenTrue s hs => Concur.peek fun t ht => ?_
    split_ifs with helse
    · refine Concur.tail (Nat.zero_le 1) ht (by simp [helse]) fun hs => ?_
      have hfalse := ih (.item .expression) s.tail (by show _ + 3 < n; omega)
      exact Concur.bind (Nat.zero_le _) hfalse fun whenFalse rest _ => .done rest rfl
    · exact .done s rfl
  split_ifs
  · exact hbranches s (Nat.le_refl _)
  · exact Concur.expect (Nat.zero_le 1) nofun fun rest hrest => hbranches rest (Nat.le_of_lt hrest)

/-- What follows `lambda` or `let`. -/
theorem concur_scope (i : Item) (build : Option Text → List i.Result → Node → Node)
    (hn : 4 * s.length < n) :
    s.Concur (fun _ => 0)
      (Parser.optionalName s >>= fun f => f.2.expect (.mark .openParen) >>= fun s =>
        call (.items i .parens true) s >>= fun xs => call (.item .expression) xs.2 >>= fun body =>
          pure (build f.1 xs.1 body.1, body.2))
      (Parser.optionalName s >>= fun f => f.2.expect (.mark .openParen) >>= fun s =>
        call' (.items i .parens true) s >>= fun xs => call' (.item .expression) xs.2 >>= fun body =>
          pure (build f.1 xs.1 body.1, body.2)) := by
  refine Concur.bind (Nat.le_refl 0) (concur_optionalName s) fun f s hs => ?_
  refine Concur.expect (Nat.zero_le 1) nofun fun s hs' => ?_
  have hlist := ih (.items i .parens true) s (by show _ + 4 < n; omega)
  refine Concur.bind (Nat.zero_le 1) hlist fun xs s hs'' => ?_
  have hbody := ih (.item .expression) s (by show _ + 3 < n; omega)
  exact Concur.bind (Nat.zero_le _) hbody fun body rest _ => .done rest rfl

theorem concur_primary (hn : 4 * s.length + 1 ≤ n) :
    s.Concur (fun _ => 1) (Goal.step call .primary s) (Goal.step call' .primary s) := by
  refine Concur.peek fun t ht => ?_
  obtain ⟨l, pos⟩ := t
  -- A token that a primary expression may start with is taken.
  have htail : ∀ {x y : Except Error (Node × Stream)}, l ≠ .endOfInput →
      (s.tail.length < s.length → s.tail.Concur (fun _ => 0) x y) → s.Concur (fun _ => 1) x y :=
    fun hne h => Concur.tail (Nat.le_refl 1) ht hne h
  cases l with
  | mark m =>
    cases m with
    | openParen =>
      refine htail nofun fun hs => ?_
      have hinside := ih (.item .expression) s.tail (by show _ + 3 < n; omega)
      refine Concur.bind (Nat.zero_le _) hinside fun node rest _ => ?_
      exact Concur.expect (Nat.zero_le 1) nofun fun rest _ => .done rest rfl
    | openBrace =>
      refine htail nofun fun hs => ?_
      have hbody := ih (.items .expression .braces true) s.tail (by show _ + 4 < n; omega)
      exact Concur.bind (Nat.zero_le _) hbody fun body rest _ => .done rest rfl
    | _ => exact .error _
  | keyword w =>
    cases w with
    | ifWord =>
      exact htail nofun fun hs => (ih (.conditional pos) s.tail (by show _ + 4 < n; omega)).zero
    | trueWord | falseWord => exact htail nofun fun _ => .done s.tail rfl
    | lambdaWord =>
      exact htail nofun fun hs => concur_scope ih .name (fun f => .lambda pos f) (by omega)
    | letWord =>
      exact htail nofun fun hs => concur_scope ih .definition (Parser.binding pos) (by omega)
    | thenWord | elseWord => exact .error _
  | identifier _ | number _ _ | string _ => exact htail nofun fun _ => .done s.tail rfl
  | operator _ | endOfInput => exact .error _

/-- Two parsers answer a goal alike if they answer the calls for it alike, and it takes tokens if
those do. -/
theorem concur_step (g : Goal) (hn : 4 * s.length + g.rank ≤ n) :
    s.Concur (fun _ => g.least) (Goal.step call g s) (Goal.step call' g s) := by
  cases g with
  | item i =>
    cases i with
    | expression => exact concur_expression ih hn
    | name => exact concur_name s
    | definition => exact concur_definition ih hn
  | items i b first => exact concur_items ih i b first hn
  | chain left level => exact concur_chain ih left level hn
  | calls callee => exact concur_calls ih callee hn
  | operand => exact concur_operand ih hn
  | primary => exact concur_primary ih hn
  | conditional pos => exact concur_conditional ih pos hn

end

/-! ## Runs -/

/-- A result takes as many tokens as its goal takes at least. -/
theorem Goal.takes (n k : Nat) (g : Goal) (s : Stream) :
    s.Concur (fun _ => g.least) (g.parse n k s) (g.parse n k s) := by
  -- The bound on lists goes down within a function, and the bound on the depth with every call.
  induction n generalizing k g s with
  | zero =>
    induction k generalizing g s with
    | zero =>
      cases g with
      | item i =>
        cases i with
        | name => exact concur_name s
        | _ => exact .error _
      | _ => exact .error _
    | succ k ihk =>
      cases g with
      | items i b first =>
        rw [Parser.delimited_succ]
        exact concur_step (fun g s _ => ihk g s) _ (Nat.le_refl _)
      | _ => exact ihk _ s
  | succ n ih =>
    induction k generalizing g s with
    | zero =>
      cases g with
      | items i b first => exact .error _
      | _ =>
        rw [Goal.parse_succ]
        · exact concur_step (fun g s _ => ih n g s) _ (Nat.le_refl _)
        · nofun
    | succ k ihk =>
      cases g with
      | items i b first =>
        rw [Parser.delimited_succ]
        exact concur_step (fun g s _ => ihk g s) _ (Nat.le_refl _)
      | _ => exact ihk _ s

/-- Where the bounds are large enough, the parser takes a step, and bounds that are large enough for
the calls are left. -/
theorem Goal.parse_eq_step {n k : Nat} (g : Goal) (s : Stream)
    (hn : 4 * s.length + g.rank ≤ n) (hk : 4 * s.length + g.rank ≤ k) :
    ∃ n' k', g.parse n k s = Goal.step (fun g => g.parse n' k') g s ∧
      4 * s.length + g.rank ≤ n' + 1 ∧ 4 * s.length + g.rank ≤ k' + 1 := by
  have hsucc : 1 ≤ g.rank → (∀ i b first, g ≠ .items i b first) →
      ∃ n' k', g.parse n k s = Goal.step (fun g => g.parse n' k') g s ∧
        4 * s.length + g.rank ≤ n' + 1 ∧ 4 * s.length + g.rank ≤ k' + 1 := by
    intro hrank hg
    obtain ⟨n, rfl⟩ : ∃ n', n = n' + 1 := ⟨n - 1, by omega⟩
    exact ⟨n, n, Goal.parse_succ n k g hg s, hn, hn⟩
  cases g with
  | item i =>
    cases i with
    | name => exact ⟨n, k, rfl, Nat.le_succ_of_le hn, Nat.le_succ_of_le hk⟩
    | _ => exact hsucc (by decide) fun _ _ _ h => by cases h
  | items i b first =>
    obtain ⟨k, rfl⟩ : ∃ k', k = k' + 1 := ⟨k - 1, by simp only [rank] at hk; omega⟩
    exact ⟨n, k, Parser.delimited_succ n k i b first s, Nat.le_succ_of_le hn, hk⟩
  | _ => exact hsucc (by simp [rank, height]) fun _ _ _ h => by cases h

/-- Calls that may go as deep as four times the number of tokens are answered like those of the
parser, whatever calls below that depth would be answered. -/
theorem Goal.within_eq_parse (deep : Descent) {d n k : Nat} (g : Goal) (s : Stream)
    (hd : 4 * s.length + g.rank < d) (hn : 4 * s.length + g.rank ≤ n)
    (hk : 4 * s.length + g.rank ≤ k) : Goal.within deep d g s = g.parse n k s := by
  induction d generalizing g s n k with
  | zero => exact absurd hd (Nat.not_lt_zero _)
  | succ d ih =>
    obtain ⟨n', k', hparse, hn', hk'⟩ := Goal.parse_eq_step g s hn hk
    rw [hparse]
    refine (concur_step (fun g' s' h => ?_) g (Nat.le_refl _)).1
    exact ⟨ih g' s' (by omega) (by omega) (by omega), (Goal.takes n' k' g' s').2⟩

/-! ## Programs -/

/-- The expressions of a program, by at most `n` turns; `late` answers for the turns after these. -/
def Parser.statementsWithin (deep : Descent) (late : Stream → Except Error (List Node))
    (d : Nat) : Nat → Stream → Except Error (List Node)
  | 0, s => late s
  | n + 1, s => do
    match ← programTurn (Goal.within deep d) s with
    | (none, _) => return []
    | (some e, s) => return e :: (← statementsWithin deep late d n s)

/-- The program of a stream, by calls and turns within bounds. -/
def Program.within (deep : Descent) (late : Stream → Except Error (List Node)) (d n : Nat)
    (s : Stream) : Except Error Program := do
  let first ← s.peek
  return ⟨first.pos, ← Parser.statementsWithin deep late d n s⟩

/-- The loop over the expressions of a program takes its turns. A last turn that has found an
expression and then the end of the input counts as two. -/
theorem Parser.statements_succ {m : Nat} {s : Stream} (hm : s.length ≤ m) :
    statements (m + 1) s = (do
      match ← programTurn (fun g => g.parse (depth s) (depth s)) s with
      | (none, _) => return []
      | (some e, s) => return e :: (← statements m s)) := by
  have htakes := (Goal.takes (depth s) (depth s) (.item .expression) s).2
  simp only [statements, programTurn, bind_assoc]
  refine bind_congr fun t => ?_
  split_ifs
  · rfl
  simp only [bind_assoc]
  show (expression (depth s) s >>= _) = (expression (depth s) s >>= _)
  cases hx : expression (depth s) s with
  | error e => rfl
  | ok x =>
    obtain ⟨e, rest⟩ := x
    have hrest : rest.length + 1 ≤ s.length := (htakes e rest hx).length_le
    obtain ⟨m, rfl⟩ : ∃ m', m = m' + 1 := ⟨m - 1, by omega⟩
    show (rest.peek >>= _) = (rest.peek >>= _)
    cases ht : rest.peek with
    | error e => rfl
    | ok t =>
      show ite _ _ _ = ite _ _ _ >>= _
      split_ifs with hend
      · have hnil : statements (m + 1) rest = .ok [] := ok_bind ht (if_pos hend)
        exact congrArg (· >>= fun es => pure (e :: es)) hnil.symm
      · symm
        exact bind_assoc _ _ _

/-- The loop over the expressions of a program ends, by turns that are those of the parser. -/
theorem Parser.statementsWithin_eq (deep : Descent) (late : Stream → Except Error (List Node))
    {d n m : Nat} (s : Stream) (hd : 4 * s.length + 3 < d) (hn : s.length < n)
    (hm : s.length < m) : statementsWithin deep late d n s = statements m s := by
  induction n generalizing m s with
  | zero => exact absurd hn (Nat.not_lt_zero _)
  | succ n ih =>
    obtain ⟨m, rfl⟩ : ∃ m', m = m' + 1 := ⟨m - 1, by omega⟩
    have hcalls : ∀ (g : Goal) (s' : Stream), 4 * s'.length + g.rank < 4 * s.length + 4 →
        s'.Concur (fun _ => g.least) (Goal.within deep d g s')
          (g.parse (depth s) (depth s) s') := by
      intro g s' hs'
      have hdepth : 4 * s'.length + g.rank ≤ depth s := by
        simp only [depth]
        omega
      exact ⟨Goal.within_eq_parse deep g s' (by omega) hdepth hdepth, (Goal.takes _ _ g s').2⟩
    obtain ⟨hturn, htakes⟩ := concur_programTurn hcalls (Nat.lt_succ_self _)
    rw [statementsWithin, statements_succ (by omega), hturn]
    cases hx : programTurn (fun g => g.parse (depth s) (depth s)) s with
    | error e => rfl
    | ok x =>
      obtain ⟨_ | e, rest⟩ := x
      · rfl
      · have hlength : rest.length + 1 ≤ s.length := (htakes _ rest hx).length_le
        have hrest := ih rest (m := m) (by omega) (by omega) (by omega)
        exact congrArg (· >>= fun es => pure (e :: es)) hrest

theorem Program.within_eq_ofStream (deep : Descent) (late : Stream → Except Error (List Node))
    {d n : Nat} {s : Stream} (hd : 4 * s.length + 3 < d) (hn : s.length < n) :
    Program.within deep late d n s = Program.ofStream s := by
  rw [Program.within, Program.ofStream,
    Parser.statementsWithin_eq deep late s hd hn (Nat.lt_succ_self _)]

/-- Every token takes a byte, so that no more than the bytes need be scanned for. -/
theorem Stream.scanWithin_eq {c : Cursor} {m n : Nat} (hm : c.rest.length < m)
    (hn : c.rest.length < n) : scanWithin m c = scanWithin n c := by
  induction m generalizing n c with
  | zero => exact absurd hm (Nat.not_lt_zero _)
  | succ m ih =>
    obtain ⟨n, rfl⟩ : ∃ n', n = n' + 1 := ⟨n - 1, by omega⟩
    rcases scan_cases c with ⟨pos, c', h⟩ | ⟨t, c', h, ht⟩ | ⟨e, c', h⟩
    · rw [scanWithin_finish h, scanWithin_finish h]
    · have hlt := Cursor.length_scan h ht
      rw [scanWithin_token h ht, scanWithin_token h ht, ih (n := n) (by omega) (by omega)]
    · rw [scanWithin_broken h, scanWithin_broken h]

/-- On every source the parser comes to an end: no call for it goes deeper than about four times
the number of tokens, and no loop makes more turns than there are tokens, since every result of the
functions and every turn but the last takes a token that is not the end of the input. -/
theorem Program.descent (source : Text) :
    (∀ n, source.length < n →
      Stream.scanWithin n (Cursor.ofSource source) = Stream.ofSource source) ∧
    (∀ deep late d n, 4 * (Stream.ofSource source).length + 3 < d →
      (Stream.ofSource source).length < n →
      Program.within deep late d n (Stream.ofSource source) = Program.parse source) ∧
    (∀ (g : Goal) (n k : Nat) (s rest : Stream) (r : g.Result),
      g.parse n k s = .ok (r, rest) → s.Leaves g.least rest) ∧
    (∀ (n k : Nat) (i : Item) (b : Enclosure) (first : Bool) (s rest : Stream) (x : i.Result),
      Parser.listTurn (fun g => g.parse n k) i b first s = .ok (some x, rest) →
        s.Leaves 1 rest) ∧
    (∀ (n k : Nat) (callee node : Node) (s rest : Stream),
      Parser.callTurn (fun g => g.parse n k) callee s = .ok (some node, rest) →
        s.Leaves 1 rest) ∧
    (∀ (n k : Nat) (node : Node) (s rest : Stream),
      Parser.programTurn (fun g => g.parse n k) s = .ok (some node, rest) → s.Leaves 1 rest) := by
  refine ⟨fun n hn => Stream.scanWithin_eq hn (Nat.lt_succ_self _), ?_, ?_, ?_, ?_, ?_⟩
  · exact fun deep late d n hd hn => Program.within_eq_ofStream deep late hd hn
  · exact fun g n k s rest r h => (Goal.takes n k g s).2 r rest h
  · intro n k i b first s rest x h
    exact (concur_listTurn (fun g s _ => Goal.takes n k g s) i b first (Nat.le_refl _)).2 _ rest h
  · intro n k callee node s rest h
    exact (concur_callTurn (fun g s _ => Goal.takes n k g s) callee (Nat.le_refl _)).2 _ rest h
  · intro n k node s rest h
    exact (concur_programTurn (fun g s _ => Goal.takes n k g s) (Nat.lt_succ_self _)).2 _ rest h

/-- A list that is not closed, where calls below depth 16 and turns after the fourth would be
noticed. -/
theorem Program.descent_unclosed :
    Program.within (fun _ _ => .error (.plain (bytes "deep")))
      (fun _ => .error (.plain (bytes "late"))) 16 4 (Stream.ofSource (bytes "f(x")) =
        Program.parse (bytes "f(x") :=
  (Program.descent (bytes "f(x")).2.1 _ _ 16 4 (by decide) (by decide)

end Mycel

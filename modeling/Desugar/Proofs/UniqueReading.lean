import Desugar.Syntax.Decode
import Desugar.Syntax.Render
import Mathlib.Data.List.Basic

/-!
# Rendered expressions have one reading

The text of an expression is read back one character at a time.  What is read so far is
an operand and a stack of what waits for operands; an operator first settles everything on
the stack that binds at least as tightly.  Reading gives back the expression without its
identities and parentheses, so that two expressions with one text differ in nothing else.
-/

namespace Desugar

/-!
## Plain expressions
-/

mutual

/-- An expression without identities and parentheses. -/
def Expr.bare : Expr → Expr
  | .ident _ name => .ident default name
  | .paren _ x => x.bare
  | .selector _ x name => .selector default x.bare name
  | .index _ x index => .index default x.bare index.bare
  | .call _ callee args spread => .call default callee.bare (Exprs.bare args) spread
  | .star _ x => .star default x.bare
  | .unary _ op x => .unary default op x.bare
  | .binary _ op x y => .binary default op x.bare y.bare
  | e => e

def Exprs.bare : List Expr → List Expr
  | [] => []
  | e :: rest => e.bare :: Exprs.bare rest

end

def marks : List Char :=
  [' ', '(', ')', '[', ']', '.', ',', '+', '-', '*', '/', '%', '&', '|', '^', '<', '>', '=', '!']

def isPlainChar (c : Char) : Bool :=
  !marks.contains c

def Word (text : String) : Prop :=
  text ≠ "" ∧ ∀ c ∈ text.toList, isPlainChar c = true

theorem Word.of_isAlphanum {text : String} (hne : text ≠ "")
    (h : ∀ c ∈ text.toList, c.isAlphanum = true) : Word text := by
  have hmarks : ∀ c ∈ marks, c.isAlphanum = false := by simp [marks]
  refine ⟨hne, fun c hc => ?_⟩
  rw [isPlainChar, Bool.not_eq_true', Bool.eq_false_iff, ne_eq, List.contains_iff_mem]
  intro hmem
  exact Bool.false_ne_true ((hmarks c hmem).symm.trans (h c hc))

mutual

/-- An expression of names, parentheses, selectors, indexing, calls and operators. -/
def Expr.Plain : Expr → Prop
  | .ident _ name => Word name
  | .paren _ x => x.Plain
  | .selector _ x name => x.Plain ∧ Word name
  | .index _ x index => x.Plain ∧ index.Plain
  | .call _ callee args _ => callee.Plain ∧ Exprs.Plain args
  | .star _ x => x.Plain
  | .unary _ _ x => x.Plain
  | .binary _ _ x y => x.Plain ∧ y.Plain
  | _ => False

def Exprs.Plain : List Expr → Prop
  | [] => True
  | e :: rest => e.Plain ∧ Exprs.Plain rest

end

/-!
## Reading
-/

inductive Pending where
  | star
  | unary (op : UnaryOp)
  | binary (op : BinaryOp) (x : Expr)
  | paren
  | index (x : Expr)
  | call (callee : Expr) (args : List Expr)

namespace Pending

def precedence : Pending → Nat
  | .star | .unary _ => unaryPrecedence
  | .binary op _ => op.precedence
  | .paren | .index _ | .call _ _ => 0

def fill : Pending → Expr → Expr
  | .star, e => .star default e
  | .unary op, e => .unary default op e
  | .binary op x, e => .binary default op x e
  | _, e => e

end Pending

def settle (least : Nat) : List Pending → Expr → List Pending × Expr
  | [], e => ([], e)
  | first :: stack, e =>
      if first.precedence < least then (first :: stack, e) else settle least stack (first.fill e)

/-- What has been read: an operand is to come, or has come and may be followed by an operator,
a selector or the dots of a spread call. -/
inductive ReadState where
  | operand (stack : List Pending)
  | receive (stack : List Pending)
  | after (stack : List Pending) (e : Expr)
  | operator (stack : List Pending) (e : Expr) (text : String)
  | dot (stack : List Pending) (e : Expr)
  | dots (stack : List Pending)
  | lost

namespace ReadState

def extend (stack : List Pending) (c : Char) : Expr → ReadState
  | .ident id name => .after stack (.ident id (name.push c))
  | .selector id x name => .after stack (.selector id x (name.push c))
  | _ => .lost

def close : List Pending × Expr → Char → ReadState
  | (.paren :: stack, e), ')' => .after stack e
  | (.call callee args :: stack, e), ')' => .after stack (.call default callee (args ++ [e]) false)
  | (.call callee args :: stack, e), ',' => .operand (.call callee (args ++ [e]) :: stack)
  | (.call callee args :: stack, e), '.' => .dots (.call callee (args ++ [e]) :: stack)
  | (.index x :: stack, e), ']' => .after stack (.index default x e)
  | _, _ => .lost

def closeCall (spread : Bool) : List Pending → ReadState
  | .call callee args :: stack => .after stack (.call default callee args spread)
  | _ => .lost

def next : ReadState → Char → ReadState
  | .operand stack, c =>
      if isPlainChar c then .after stack (.ident default (String.singleton c))
      else
        match c with
        | ' ' => .operand stack
        | '(' => .operand (.paren :: stack)
        | ')' => closeCall false stack
        | '.' => .dots stack
        | '*' => .operand (.star :: stack)
        | '-' => .operand (.unary .neg :: stack)
        | '+' => .operand (.unary .pos :: stack)
        | '!' => .operand (.unary .not :: stack)
        | '^' => .operand (.unary .xor :: stack)
        | '&' => .operand (.unary .addr :: stack)
        | '<' => .receive stack
        | _ => .lost
  | .receive stack, _ => .operand (.unary .recv :: stack)
  | .after stack e, c =>
      if isPlainChar c then extend stack c e
      else
        match c with
        | ' ' => .operator stack e ""
        | '.' => .dot stack e
        | '(' => .operand (.call e [] :: stack)
        | '[' => .operand (.index e :: stack)
        | c => close (settle 1 stack e) c
  | .operator stack e text, c =>
      if c = ' ' then
        match BinaryOp.all.find? fun op => op.symbol == text with
        | some op =>
            .operand (.binary op (settle op.precedence stack e).2 ::
              (settle op.precedence stack e).1)
        | none => .lost
      else .operator stack e (text.push c)
  | .dot stack e, c =>
      if isPlainChar c then .after stack (.selector default e (String.singleton c))
      else close (settle 1 stack e) c
  | .dots stack, c => if c = ')' then closeCall true stack else .dots stack
  | .lost, _ => .lost

def read (state : ReadState) (text : String) : ReadState :=
  text.toList.foldl next state

theorem read_append (state : ReadState) (text more : String) :
    state.read (text ++ more) = (state.read text).read more := by
  rw [read, String.toList_append, List.foldl_append]
  rfl

theorem read_unary (stack : List Pending) (op : UnaryOp) :
    (operand stack).read op.symbol = .operand (.unary op :: stack) := by
  cases op <;> rfl

theorem read_binary (stack : List Pending) (e : Expr) (op : BinaryOp) :
    (((after stack e).read " ").read op.symbol).read " " =
      .operand
        (.binary op (settle op.precedence stack e).2 :: (settle op.precedence stack e).1) := by
  cases op <;> rfl

end ReadState

/-!
## Settling
-/

theorem settle_settle {k l : Nat} (h : k ≤ l) (stack : List Pending) (e : Expr) :
    settle k (settle l stack e).1 (settle l stack e).2 = settle k stack e := by
  induction stack generalizing e with
  | nil => rfl
  | cons first stack ih =>
    by_cases hl : first.precedence < l
    · rw [settle, if_pos hl]
    · have hk : ¬ first.precedence < k := fun hk => hl (Nat.lt_of_lt_of_le hk h)
      rw [settle, if_neg hl, ih, settle, if_neg hk]

theorem BinaryOp.precedence_bounds (op : BinaryOp) : 1 ≤ op.precedence ∧ op.precedence ≤ 5 := by
  cases op <;> decide

theorem Expr.precedence_pos (e : Expr) : 1 ≤ e.precedence := by
  cases e with
  | binary id op x y => exact op.precedence_bounds.1
  | _ => exact Nat.le_add_left 1 _

theorem settle_of_lt {k : Nat} {first : Pending} (h : first.precedence < k) (stack : List Pending)
    (e : Expr) : settle k (first :: stack) e = (first :: stack, e) :=
  if_pos h

theorem settle_of_le {k : Nat} {first : Pending} (h : k ≤ first.precedence) (stack : List Pending)
    (e : Expr) : settle k (first :: stack) e = settle k stack (first.fill e) :=
  if_neg (Nat.not_lt.mpr h)

theorem Pending.precedence_lt (first : Pending) : first.precedence < primaryPrecedence := by
  cases first with
  | star | unary op => exact Nat.lt_succ_self 6
  | binary op x => exact Nat.lt_of_le_of_lt op.precedence_bounds.2 (by decide)
  | paren | index x | call callee args => exact Nat.succ_pos 6

/-- A stack where an operator of precedence at most five leaves the last entry waiting. -/
def Loose (k : Nat) (stack : List Pending) : Prop :=
  ∀ first ∈ stack.head?, k < unaryPrecedence → first.precedence < k

theorem Loose.settle {k : Nat} {stack : List Pending} (h : Loose k stack) (hk : k < unaryPrecedence)
    (e : Expr) : settle k stack e = (stack, e) := by
  cases stack with
  | nil => rfl
  | cons first stack => exact settle_of_lt (h first rfl hk) stack e

theorem settle_primary (stack : List Pending) (e : Expr) :
    settle primaryPrecedence stack e = (stack, e) := by
  cases stack with
  | nil => rfl
  | cons first stack => exact settle_of_lt first.precedence_lt stack e

/-!
## Reading what is written
-/

def ReadsAs (k : Nat) (text : String) (e : Expr) : Prop :=
  ∀ stack, Loose k stack → ∃ stack' e',
    (ReadState.operand stack).read text = .after stack' e' ∧ settle k stack' e' = settle k stack e

theorem ReadsAs.of_read {text : String} {e : Expr}
    (h : ∀ stack, (ReadState.operand stack).read text = .after stack e) (k : Nat) :
    ReadsAs k text e :=
  fun stack _ => ⟨stack, e, h stack, rfl⟩

theorem ReadsAs.read_primary {text : String} {e : Expr} (h : ReadsAs primaryPrecedence text e)
    (stack : List Pending) : (ReadState.operand stack).read text = .after stack e := by
  obtain ⟨stack', e', hread, hsettle⟩ := h stack fun _ _ hk => absurd hk (by decide)
  rw [settle_primary, settle_primary] at hsettle
  cases hsettle
  exact hread

theorem ReadsAs.bracketed {k : Nat} {text : String} {e : Expr} (h : ReadsAs k text e) (hk : 1 ≤ k)
    (first : Pending) (hfirst : first.precedence = 0) (stack : List Pending) :
    ∃ stack' e', (ReadState.operand (first :: stack)).read text = .after stack' e' ∧
      settle 1 stack' e' = (first :: stack, e) := by
  have hlt : first.precedence < k := by omega
  obtain ⟨stack', e', hread, hsettle⟩ := h (first :: stack) fun _ hmem _ => by
    cases hmem
    exact hlt
  refine ⟨stack', e', hread, ?_⟩
  rw [← settle_settle hk, hsettle, settle_settle hk, settle_of_lt (by omega)]

theorem ReadsAs.parenthesized {k : Nat} {text : String} {e : Expr} (h : ReadsAs k text e)
    (hk : 1 ≤ k) (stack : List Pending) :
    (ReadState.operand stack).read (parenthesized text) = .after stack e := by
  obtain ⟨stack', e', hread, hsettle⟩ := h.bracketed hk .paren rfl stack
  have hopen : (ReadState.operand stack).read "(" = .operand (.paren :: stack) := rfl
  have hclose : (ReadState.after stack' e').read ")" = .close (settle 1 stack' e') ')' := rfl
  rw [Desugar.parenthesized, ReadState.read_append, ReadState.read_append, hopen, hread, hclose,
    hsettle]
  rfl

theorem ReadsAs.operandText {e x : Expr} {text : String} (h : ReadsAs e.precedence text x)
    (k : Nat) :
    ReadsAs k (operandText e k text) x := by
  by_cases hk : e.precedence < k
  · rw [Desugar.operandText, if_pos hk]
    exact .of_read (h.parenthesized e.precedence_pos) k
  · rw [Desugar.operandText, if_neg hk]
    intro stack hloose
    have hle : k ≤ e.precedence := Nat.not_lt.mp hk
    obtain ⟨stack', e', hread, hsettle⟩ := h stack fun first hmem hlt =>
      Nat.lt_of_lt_of_le (hloose first hmem (Nat.lt_of_le_of_lt hle hlt)) hle
    refine ⟨stack', e', hread, ?_⟩
    rw [← settle_settle hle, hsettle, settle_settle hle]

namespace ReadState

theorem foldl_next_name {stack : List Pending} {build : String → Expr}
    (hbuild : ∀ name c, extend stack c (build name) = .after stack (build (name.push c)))
    {chars : List Char} (hchars : ∀ c ∈ chars, isPlainChar c = true) (name : String) :
    chars.foldl next (.after stack (build name)) =
      .after stack (build (name ++ String.ofList chars)) := by
  induction chars generalizing name with
  | nil => simp
  | cons c chars ih =>
    have hnext : next (.after stack (build name)) c = .after stack (build (name.push c)) :=
      (if_pos (hchars c (List.mem_cons_self ..))).trans (hbuild name c)
    rw [List.foldl_cons, hnext, ih fun d hd => hchars d (List.mem_cons_of_mem c hd)]
    congr 2
    simp [← String.toList_inj]

theorem read_name {state : ReadState} {stack : List Pending} (build : String → Expr) {name : String}
    (hname : Word name)
    (hfirst : ∀ c, isPlainChar c = true → next state c = .after stack (build (String.singleton c)))
    (hbuild : ∀ name c, extend stack c (build name) = .after stack (build (name.push c))) :
    state.read name = .after stack (build name) := by
  obtain ⟨hne, hchars⟩ := hname
  rw [read]
  cases h : name.toList with
  | nil => exact absurd (String.toList_eq_nil_iff.mp h) hne
  | cons c chars =>
    rw [h] at hchars
    have hwhole : String.singleton c ++ String.ofList chars = name := by
      simp [← String.toList_inj, h]
    rw [List.foldl_cons, hfirst c (hchars c (List.mem_cons_self ..)),
      foldl_next_name hbuild fun d hd => hchars d (List.mem_cons_of_mem c hd), hwhole]

end ReadState

def ReadAsArgs (texts : List String) (exprs : List Expr) : Prop :=
  ∀ callee args stack, ∃ stack' e' init last,
    (ReadState.operand (.call callee args :: stack)).read (commaSeparated texts) =
        .after stack' e' ∧
      settle 1 stack' e' = (.call callee init :: stack, last) ∧ init ++ [last] = args ++ exprs

theorem ReadAsArgs.cons {k : Nat} {text other : String} {texts : List String} {e : Expr}
    {exprs : List Expr} (h : ReadsAs k text e) (hk : 1 ≤ k)
    (hrest : ReadAsArgs (other :: texts) exprs) :
    ReadAsArgs (text :: other :: texts) (e :: exprs) := by
  intro callee args stack
  obtain ⟨stack', e', hread, hsettle⟩ :=
    h.bracketed hk (.call callee args) rfl stack
  obtain ⟨stack'', e'', init, last, hothers, hlast, hargs⟩ :=
    hrest callee (args ++ [e]) stack
  have hcomma : (ReadState.after stack' e').read ", " =
      (ReadState.close (settle 1 stack' e') ',').read " " := rfl
  have hspace : (ReadState.close (.call callee args :: stack, e) ',').read " " =
      .operand (.call callee (args ++ [e]) :: stack) := rfl
  refine ⟨stack'', e'', init, last, ?_, hlast, by rw [hargs, List.append_assoc]; rfl⟩
  rw [commaSeparated, String.intercalate_cons_cons, ReadState.read_append, ReadState.read_append,
    hread, hcomma, hsettle, hspace]
  exact hothers

mutual

theorem Expr.readsAs_renderAt (indent : Nat) :
    (e : Expr) → e.Plain → ReadsAs e.precedence (e.renderAt indent) e.bare
  | .ident id name, h => .of_read (fun stack =>
      ReadState.read_name (.ident default) h (fun c hc => if_pos hc) fun _ _ => rfl) _
  | .paren id x, h => .of_read ((x.readsAs_renderAt indent h).parenthesized x.precedence_pos) _
  | .selector id x name, h => by
    refine .of_read (fun stack => ?_) _
    have hx := ((x.readsAs_renderAt indent h.1).operandText primaryPrecedence).read_primary stack
    rw [Expr.renderAt, ReadState.read_append, ReadState.read_append, hx]
    exact ReadState.read_name (.selector default x.bare) h.2 (fun c hc => if_pos hc)
      fun _ _ => rfl
  | .index id x index, h => by
    refine .of_read (fun stack => ?_) _
    have hx := ((x.readsAs_renderAt indent h.1).operandText primaryPrecedence).read_primary stack
    obtain ⟨stack', e', hread, hsettle⟩ := (index.readsAs_renderAt indent h.2).bracketed
      index.precedence_pos (.index x.bare) rfl stack
    have hopen : (ReadState.after stack x.bare).read "[" = .operand (.index x.bare :: stack) := rfl
    have hclose : (ReadState.after stack' e').read "]" = .close (settle 1 stack' e') ']' := rfl
    rw [Expr.renderAt, ReadState.read_append, ReadState.read_append, ReadState.read_append, hx,
      hopen, hread, hclose, hsettle]
    rfl
  | .call id callee args spread, h => by
    refine .of_read (fun stack => ?_) _
    have hx :=
      ((callee.readsAs_renderAt indent h.1).operandText primaryPrecedence).read_primary stack
    have hopen : (ReadState.after stack callee.bare).read "(" =
      .operand (.call callee.bare [] :: stack) := rfl
    rw [Expr.renderAt, Desugar.parenthesized, ReadState.read_append, ReadState.read_append,
      ReadState.read_append, ReadState.read_append, hx, hopen, Expr.bare]
    by_cases hne : args = []
    · subst hne
      cases spread <;> rfl
    · obtain ⟨stack', e', init, last, hread, hsettle, hargs⟩ :=
        Exprs.readAsArgs_renderAt indent args h.2 hne callee.bare [] stack
      have hclose : (ReadState.after stack' e').read ")" = .close (settle 1 stack' e') ')' := rfl
      have hdots : (ReadState.after stack' e').read "..." =
        (ReadState.close (settle 1 stack' e') '.').read "." := rfl
      rw [List.nil_append] at hargs
      rw [hread, ← hargs]
      cases spread with
      | false => exact hclose.trans (by rw [hsettle]; rfl)
      | true =>
        rw [if_pos rfl, hdots, hsettle]
        rfl
  | .star id x, h => by
    intro stack _
    obtain ⟨stack', e', hread, hsettle⟩ := (x.readsAs_renderAt indent h).operandText unaryPrecedence
      (.star :: stack) fun _ _ hk => absurd hk (by decide)
    have hopen : (ReadState.operand stack).read "*" = .operand (.star :: stack) := rfl
    rw [Expr.renderAt, ReadState.read_append, hopen]
    exact ⟨stack', e', hread, hsettle.trans (settle_of_le (Nat.le_refl _) stack x.bare)⟩
  | .unary id op x, h => by
    intro stack _
    obtain ⟨stack', e', hread, hsettle⟩ := (x.readsAs_renderAt indent h).operandText unaryPrecedence
      (.unary op :: stack) fun _ _ hk => absurd hk (by decide)
    rw [Expr.renderAt, ReadState.read_append, ReadState.read_unary]
    exact ⟨stack', e', hread, hsettle.trans (settle_of_le (Nat.le_refl _) stack x.bare)⟩
  | .binary id op x y, h => by
    intro stack hloose
    have hlt : op.precedence < unaryPrecedence := Nat.lt_succ_of_le op.precedence_bounds.2
    obtain ⟨left, x', hreadx, hsettlex⟩ :=
      (x.readsAs_renderAt indent h.1).operandText op.precedence stack hloose
    -- The operator takes just the operand, for all before it binds looser.
    have hx : settle op.precedence left x' = (stack, x.bare) := hsettlex.trans (hloose.settle hlt _)
    obtain ⟨right, y', hready, hsettley⟩ :=
      (y.readsAs_renderAt indent h.2).operandText (op.precedence + 1) (.binary op x.bare :: stack)
        fun first hmem _ => by
          cases hmem
          exact Nat.lt_succ_self op.precedence
    have hy : settle op.precedence right y' =
        settle op.precedence stack (.binary default op x.bare y.bare) := by
      rw [← settle_settle (Nat.le_succ op.precedence), hsettley,
        settle_settle (Nat.le_succ op.precedence)]
      exact settle_of_le (Nat.le_refl op.precedence) stack y.bare
    refine ⟨right, y', ?_, hy⟩
    rw [Expr.renderAt, ReadState.read_append, ReadState.read_append, ReadState.read_append,
      ReadState.read_append, hreadx, ReadState.read_binary, hx]
    exact hready

theorem Exprs.readAsArgs_renderAt (indent : Nat) :
    (args : List Expr) → Exprs.Plain args → args ≠ [] →
      ReadAsArgs (Exprs.renderAt indent args) (Exprs.bare args)
  | [], _, hne => absurd rfl hne
  | [e], h, _ => by
    intro callee args stack
    obtain ⟨stack', e', hread, hsettle⟩ := (e.readsAs_renderAt indent h.1).bracketed
      e.precedence_pos (.call callee args) rfl stack
    exact ⟨stack', e', args, e.bare, hread, hsettle, rfl⟩
  | e :: next :: rest, h, _ =>
    .cons (e.readsAs_renderAt indent h.1) e.precedence_pos
      (Exprs.readAsArgs_renderAt indent (next :: rest) h.2 (List.cons_ne_nil next rest))

end

def Expr.ofText? (text : String) : Option Expr :=
  match (ReadState.operand []).read text with
  | .after stack e => some (settle 1 stack e).2
  | _ => none

theorem Expr.ofText?_render {e : Expr} (h : e.Plain) : Expr.ofText? e.render = some e.bare := by
  obtain ⟨stack, e', hread, hsettle⟩ :=
    e.readsAs_renderAt 0 h [] fun _ hmem => absurd hmem (by simp)
  rw [Expr.ofText?, Expr.render, hread]
  dsimp only
  rw [← settle_settle e.precedence_pos, hsettle]
  rfl

/-- Plain expressions with one text differ at most in identities and parentheses. -/
theorem Expr.bare_eq_of_render_eq {e₁ e₂ : Expr} (h₁ : e₁.Plain) (h₂ : e₂.Plain)
    (h : e₁.render = e₂.render) : e₁.bare = e₂.bare := by
  have hread : some e₁.bare = some e₂.bare := by
    rw [← Expr.ofText?_render h₁, ← Expr.ofText?_render h₂, h]
  exact Option.some.inj hread

def negatedSum : Expr :=
  .unary ⟨1⟩ .neg (.binary ⟨2⟩ .add (.ident ⟨3⟩ "a") (.ident ⟨4⟩ "b"))

def negatedParen : Expr :=
  .unary ⟨5⟩ .neg (.paren ⟨6⟩ (.binary ⟨7⟩ .add (.ident ⟨8⟩ "a") (.ident ⟨9⟩ "b")))

theorem negatedSum_bare_eq : negatedSum ≠ negatedParen ∧ negatedSum.render = "-(a + b)" ∧
    negatedSum.bare = negatedParen.bare := by
  have ha : Word "a" := .of_isAlphanum (by decide) (by simp)
  have hb : Word "b" := .of_isAlphanum (by decide) (by simp)
  refine ⟨by simp [negatedSum, negatedParen], rfl, ?_⟩
  exact @Expr.bare_eq_of_render_eq negatedSum negatedParen ⟨ha, hb⟩ ⟨ha, hb⟩ rfl

end Desugar

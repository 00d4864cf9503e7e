import Mathlib

/-!
# Programs on files

A program is a sequence of operations on files, each of which may depend on the answers to those before it.
-/

namespace Durable

abbrev Bytes := List UInt8

/-- The contents of the files. -/
abbrev Files (P : Type) := P → Option Bytes

inductive Op (P : Type)
  | read (f : P)
  /-- Opens a file, which is created if there is none. -/
  | touch (f : P)
  /-- Opens a file that is empty afterwards. -/
  | create (f : P)
  | append (f : P) (data : Bytes)
  | truncate (f : P) (n : Nat)
  | rename (f g : P)
  | remove (f : P)
  /-- What changes nothing that a process can see: `fsync`, `close` and new directories. -/
  | sync

variable {P : Type} [DecidableEq P] {α β : Type}

def Op.apply (o : Op P) (d : Files P) : Files P :=
  match o with
  | .read _ | .sync => d
  | .touch f => Function.update d f (some ((d f).getD []))
  | .create f => Function.update d f (some [])
  | .append f data => Function.update d f (some ((d f).getD [] ++ data))
  | .truncate f n => Function.update d f ((d f).map fun b => b.take n ++ List.replicate (n - b.length) 0)
  | .rename f g =>
    match d f with
    | some b => Function.update (Function.update d f none) g (some b)
    | none => d
  | .remove f => Function.update d f none

@[simp] theorem Op.apply_read (f : P) (d : Files P) : (Op.read f).apply d = d := rfl

@[simp] theorem Op.apply_sync (d : Files P) : (Op.sync : Op P).apply d = d := rfl

/-- What the process learns: the contents of the file, if there is one. -/
def Op.reply (o : Op P) (d : Files P) : Option Bytes :=
  match o with
  | .read f | .remove f => d f
  | _ => none

/-- The operation is stopped in the middle. -/
def Op.Torn (o : Op P) (d d' : Files P) : Prop :=
  ∃ f data k, o = .append f data ∧ d' = Function.update d f (some ((d f).getD [] ++ data.take k))

/-- The operation cannot be stopped in the middle. -/
def Op.isWhole : Op P → Bool
  | .append _ _ => false
  | _ => true

theorem Op.not_torn {o : Op P} (ho : o.isWhole = true) {d d' : Files P} : ¬ o.Torn d d' := by
  rintro ⟨f, data, -, rfl, -⟩
  cases ho

inductive Prog (P α : Type)
  | ret (a : α)
  | step (o : Op P) (next : Except String (Option Bytes) → Prog P α)

namespace Prog

def bind : Prog P α → (α → Prog P β) → Prog P β
  | .ret a, f => f a
  | .step o next, f => .step o fun r => (next r).bind f

instance : Monad (Prog P) where
  pure := .ret
  bind := .bind

def op (o : Op P) : Prog P (Except String (Option Bytes)) := .step o .ret

end Prog

/-- A program that ends with the error of the first operation that fails. -/
abbrev Attempt (P : Type) := ExceptT String (Prog P)

def Attempt.op (o : Op P) : Attempt P (Option Bytes) := ExceptT.mk (Prog.op o)

/-- An execution from the files `d` to the files `d'`, with the result of the program or none when it is killed. -/
inductive Exec (faults : Prop) : Prog P α → Files P → Files P → Option α → Prop
  | ret {a d} : Exec faults (.ret a) d d (some a)
  | killed {p d} : Exec faults p d d none
  | torn {o next d d'} : o.Torn d d' → Exec faults (.step o next) d d' none
  | ok {o next d d' r} : Exec faults (next (.ok (o.reply d))) (o.apply d) d' r → Exec faults (.step o next) d d' r
  | fault {o next d d₁ d' r} (e : String) : faults → d₁ = d ∨ o.Torn d d₁ → Exec faults (next (.error e)) d₁ d' r →
    Exec faults (.step o next) d d' r

/-- In every execution: `post` holds at the end, and `crash` when the process is killed. -/
def Meets (faults : Prop) (p : Prog P α) (post : α → Files P → Prop) (crash : Files P → Prop) (d : Files P) : Prop :=
  (∀ d' a, Exec faults p d d' (some a) → post a d') ∧ ∀ d', Exec faults p d d' none → crash d'

section rules

variable {faults : Prop} {p : Prog P α} {post : α → Files P → Prop} {crash : Files P → Prop} {d : Files P}

theorem Meets.ret {a} (hcrash : crash d) (hpost : post a d) : Meets faults (.ret a) post crash d := by
  refine ⟨fun d' _ h => ?_, fun d' h => ?_⟩
  · cases h
    exact hpost
  · cases h
    exact hcrash

theorem Meets.step {o} {next : Except String (Option Bytes) → Prog P α} (hcrash : crash d)
    (htorn : ∀ d', o.Torn d d' → crash d') (hok : Meets False (next (.ok (o.reply d))) post crash (o.apply d)) :
    Meets False (.step o next) post crash d := by
  refine ⟨fun d' _ h => ?_, fun d' h => ?_⟩
  · cases h with
    | ok h => exact hok.1 _ _ h
    | fault _ hf => exact hf.elim
  cases h with
  | killed => exact hcrash
  | torn h => exact htorn _ h
  | ok h => exact hok.2 _ h
  | fault _ hf => exact hf.elim

theorem exec_bind {p} {f : α → Prog P β} {d' r} (h : Exec faults (p.bind f) d d' r) :
    (∃ a d₁, Exec faults p d d₁ (some a) ∧ Exec faults (f a) d₁ d' r) ∨ r = none ∧ Exec faults p d d' none := by
  induction p generalizing d with
  | ret a => exact .inl ⟨a, d, .ret, h⟩
  | step _ _ ih =>
    cases h with
    | killed => exact .inr ⟨rfl, .killed⟩
    | torn h => exact .inr ⟨rfl, .torn h⟩
    | ok h =>
      rcases ih _ h with ⟨a, d₁, h₁, h₂⟩ | ⟨rfl, h₁⟩
      · exact .inl ⟨a, d₁, .ok h₁, h₂⟩
      · exact .inr ⟨rfl, .ok h₁⟩
    | fault e hf hd h =>
      rcases ih _ h with ⟨a, d₁, h₁, h₂⟩ | ⟨rfl, h₁⟩
      · exact .inl ⟨a, d₁, .fault e hf hd h₁, h₂⟩
      · exact .inr ⟨rfl, .fault e hf hd h₁⟩

theorem Meets.bind {f : α → Prog P β} {post : β → Files P → Prop}
    (h : Meets faults p (fun a d => Meets faults (f a) post crash d) crash d) :
    Meets faults (p >>= f) post crash d := by
  refine ⟨fun d' _ hb => ?_, fun d' hb => ?_⟩
  · rcases exec_bind hb with ⟨_, _, h₁, h₂⟩ | ⟨hr, -⟩
    · exact (h.1 _ _ h₁).1 _ _ h₂
    · cases hr
  · rcases exec_bind hb with ⟨_, _, h₁, h₂⟩ | ⟨-, h₁⟩
    · exact (h.1 _ _ h₁).2 _ h₂
    · exact h.2 _ h₁

theorem Meets.mono {post' : α → Files P → Prop} {crash' : Files P → Prop} (h : Meets faults p post crash d)
    (hpost : ∀ a d, post a d → post' a d) (hcrash : ∀ d, crash d → crash' d) : Meets faults p post' crash' d :=
  ⟨fun _ _ h' => hpost _ _ (h.1 _ _ h'), fun _ h' => hcrash _ (h.2 _ h')⟩

theorem Meets.op {o : Op P} {f : Except String (Option Bytes) → Prog P α} (ho : o.isWhole = true) (hcrash : crash d)
    (hok : Meets False (f (.ok (o.reply d))) post crash (o.apply d)) : Meets False (Prog.op o >>= f) post crash d :=
  .step hcrash (fun _ h => (Op.not_torn ho h).elim) hok

theorem Meets.attempt {o : Op P} {f : Option Bytes → Attempt P α} {post : Except String α → Files P → Prop}
    (ho : o.isWhole = true) (hcrash : crash d) (hok : Meets False (f (o.reply d)).run post crash (o.apply d)) :
    Meets False (Attempt.op o >>= f).run post crash d :=
  .step hcrash (fun _ h => (Op.not_torn ho h).elim) hok

theorem Meets.andThen {p} {f : α → Attempt P β} {post : Except String β → Files P → Prop}
    (h : Meets faults p.run (fun r d => match r with
      | .ok a => Meets faults (f a).run post crash d
      | .error e => crash d ∧ post (.error e) d) crash d) : Meets faults (p >>= f).run post crash d := by
  refine Meets.bind (h.mono (fun r d hr => ?_) fun _ hd => hd)
  cases r with
  | ok => exact hr
  | error => exact .ret hr.1 hr.2

end rules

/-- The execution without faults. -/
def Prog.eval : Prog P α → Files P → α × Files P
  | .ret a, d => (a, d)
  | .step o next, d => (next (.ok (o.reply d))).eval (o.apply d)

/-- The files when the process is killed after `n` operations, with `k` bytes of the next one written. -/
def Prog.kill (k : Nat) : Nat → Prog P α → Files P → Files P
  | _, .ret _, d => d
  | 0, .step o _, d =>
    match o with
    | .append f data => Function.update d f (some ((d f).getD [] ++ data.take k))
    | _ => d
  | n + 1, .step o next, d => (next (.ok (o.reply d))).kill k n (o.apply d)

theorem exec_eval (faults : Prop) (p : Prog P α) (d : Files P) : Exec faults p d (p.eval d).2 (some (p.eval d).1) := by
  induction p generalizing d with
  | ret => exact .ret
  | step _ _ ih => exact .ok (ih _ _)

/-- Without faults, a program that comes to its end has done what is computed. -/
theorem exec_unique {p : Prog P α} {d d' : Files P} {a : α} (h : Exec False p d d' (some a)) : p.eval d = (a, d') := by
  induction p generalizing d with
  | ret =>
    cases h
    rfl
  | step _ _ ih =>
    cases h with
    | ok h => exact ih _ h
    | fault _ hf => exact hf.elim

theorem exec_kill (faults : Prop) (k n : Nat) (p : Prog P α) (d : Files P) : Exec faults p d (p.kill k n d) none := by
  induction p generalizing n d with
  | ret => cases n <;> exact .killed
  | step o _ ih =>
    cases n with
    | zero =>
      cases o with
      | append f data => exact .torn ⟨f, data, k, rfl, rfl⟩
      | _ => exact .killed
    | succ n => exact .ok (ih _ n _)

end Durable

import Xv6.Console.Editor
import Xv6.Lib.Run

/-!
# Readers of the console

`N` processes that call `consoleread` at any time, characters that come in at any time, and `kill`.
A process that waits for input sleeps until `consoleintr` wakes it up, or until it is killed. What
the processes do is the same whether they read from the console or from the editor, so the system is
over any `Device`. What has been read and returned so far is kept at the `Desk`.
-/

namespace Xv6.Console

variable {σ : Type} {N : ℕ}

/-! ### The system -/

/-- What takes characters and serves readers. -/
structure Device (σ : Type) where
  intr : BitVec 8 → σ → σ × Bool
  read : (target : ℕ) → (dst : ℕ → Bool) → (killed : Bool) → (n : ℕ) → σ →
    σ × List (BitVec 8) × Outcome

/-- The console of the source. -/
def console : Device Cons := ⟨consoleintr, readLoop⟩

/-- The editor does not look at destinations: it is for readers whose destination is valid. -/
def editor : Device Editor := ⟨Editor.intr, fun target _ killed n d => d.read target n killed⟩

/-- A call of `consoleread`. -/
structure Call where
  /-- The argument `n`. -/
  arg : ℤ
  dst : ℕ → Bool
  /-- How much room is left. -/
  n : ℕ
  /-- What has been copied to the destination. -/
  got : List (BitVec 8)

/-- The number of bytes that is asked for. -/
def Call.target (c : Call) : ℕ := c.arg.toNat

/-- What a process does. -/
inductive Reader
  | idle
  /-- In `consoleread`, and not asleep. -/
  | ready (c : Call)
  | asleep (c : Call)

/-- The call that a process is in. -/
def Reader.call? : Reader → Option Call
  | .idle => none
  | .ready c => some c
  | .asleep c => some c

/-- The process is made runnable. -/
def Reader.wake : Reader → Reader
  | .asleep c => .ready c
  | r => r

/-- A call that has returned. -/
structure Return (N : ℕ) where
  reader : Fin N
  arg : ℤ
  value : ℤ
  /-- What is at the destination. -/
  bytes : List (BitVec 8)
  deriving DecidableEq, Repr

/-- The readers and what they have got. -/
structure Desk (N : ℕ) where
  killed : Fin N → Bool
  reader : Fin N → Reader
  /-- Every byte that has been copied to a reader. -/
  log : List (Fin N × BitVec 8)
  returned : List (Return N)

namespace Desk

variable {k : Desk N} {j : Fin N} {c : Call}

/-- Nobody reads. -/
def empty (N : ℕ) : Desk N := ⟨fun _ => false, fun _ => .idle, [], []⟩

/-- `consoleread(1, dst, n)` is called. -/
def enter (j : Fin N) (n : ℤ) (dst : ℕ → Bool) (k : Desk N) : Desk N :=
  { k with reader := Function.update k.reader j (.ready ⟨n, dst, n.toNat, []⟩) }

/-- `wakeup(&cons.r)`. -/
def wakeup (k : Desk N) : Desk N := { k with reader := fun j => (k.reader j).wake }

/-- Process `j` is killed, and wakes up if it sleeps. -/
def kill (j : Fin N) (k : Desk N) : Desk N :=
  { k with
    killed := Function.update k.killed j true
    reader := Function.update k.reader j (k.reader j).wake }

/-- The call `c` has got more bytes, and has ended as `o` says. -/
def served (j : Fin N) (c : Call) (bytes : List (BitVec 8)) (o : Outcome) (k : Desk N) : Desk N :=
  match o with
  | .returns v =>
    { k with
      reader := Function.update k.reader j .idle
      log := k.log ++ bytes.map (Prod.mk j)
      returned := k.returned ++ [⟨j, c.arg, v, c.got ++ bytes⟩] }
  | .sleeps n =>
    { k with
      reader := Function.update k.reader j (.asleep { c with n := n, got := c.got ++ bytes })
      log := k.log ++ bytes.map (Prod.mk j) }

end Desk

/-- What can happen. -/
inductive Event (N : ℕ)
  /-- A character comes in. -/
  | intr (c : BitVec 8)
  | consoleread (j : Fin N) (n : ℤ) (dst : ℕ → Bool)
  /-- A reader that is not asleep gets the lock. -/
  | run (j : Fin N)
  | kill (j : Fin N)

/-- One step. -/
def step (D : Device σ) (s : σ × Desk N) : Event N → Option (σ × Desk N)
  | .intr c =>
    let r := D.intr c s.1
    some (r.1, if r.2 then s.2.wakeup else s.2)
  | .consoleread j n dst =>
    match s.2.reader j with
    | .idle => some (s.1, s.2.enter j n dst)
    | _ => none
  | .run j =>
    match s.2.reader j with
    | .ready c =>
      let r := D.read c.target c.dst (s.2.killed j) c.n s.1
      some (r.1, s.2.served j c r.2.1 r.2.2)
    | _ => none
  | .kill j => some (s.1, s.2.kill j)

/-- The destination takes all that it may get. -/
def Event.Valid : Event N → Prop
  | .consoleread _ n dst => ∀ i < n.toNat, dst i = true
  | _ => True

instance (e : Event N) : Decidable e.Valid :=
  match e with
  | .intr _ => isTrue trivial
  | .consoleread _ n dst => inferInstanceAs (Decidable (∀ i < n.toNat, dst i = true))
  | .run _ => isTrue trivial
  | .kill _ => isTrue trivial

/-! ### The calls that are open -/

/-- What a reader has copied to its destination in the call it is in. -/
def Reader.got (r : Reader) : List (BitVec 8) := r.call?.elim [] Call.got

@[simp] theorem Reader.call?_wake (r : Reader) : r.wake.call? = r.call? := by
  cases r <;> rfl

@[simp] theorem Reader.got_wake (r : Reader) : r.wake.got = r.got := by
  cases r <;> rfl

/-- All calls that are open have a property. -/
def Desk.Calls (P : Call → Prop) (k : Desk N) : Prop := ∀ j c, (k.reader j).call? = some c → P c

namespace Desk

variable {P : Call → Prop} {k : Desk N} {j : Fin N} {c : Call}

theorem Calls.wakeup (h : k.Calls P) : k.wakeup.Calls P := fun i c hc =>
  h i c (by rwa [Desk.wakeup, Reader.call?_wake] at hc)

/-- One reader does something else. -/
theorem Calls.update {r : Reader} {k' : Desk N} (h : k.Calls P)
    (hk' : k'.reader = Function.update k.reader j r) (hr : ∀ c, r.call? = some c → P c) :
    k'.Calls P := by
  intro i c hc
  rw [hk'] at hc
  by_cases hij : i = j
  · rw [hij, Function.update_self] at hc
    exact hr c hc
  · rw [Function.update_of_ne hij] at hc
    exact h i c hc

theorem Calls.kill (h : k.Calls P) : (k.kill j).Calls P :=
  h.update rfl fun c hc => h j c (by rwa [Reader.call?_wake] at hc)

theorem Calls.enter {n : ℤ} {dst : ℕ → Bool} (h : k.Calls P) (hc : P ⟨n, dst, n.toNat, []⟩) :
    (k.enter j n dst).Calls P :=
  h.update rfl fun _ he => Option.some.inj he ▸ hc

theorem Calls.served {bytes : List (BitVec 8)} {o : Outcome} (h : k.Calls P)
    (hc : ∀ n, o = .sleeps n → P { c with n := n, got := c.got ++ bytes }) :
    (k.served j c bytes o).Calls P := by
  cases o with
  | returns v => exact h.update rfl nofun
  | sleeps n => exact h.update rfl fun _ he => Option.some.inj he ▸ hc n rfl

end Desk

/-- What holds of a call over the editor: it has room for the rest, and what it has got so far is
the beginning of a line. -/
structure Call.Ok (c : Call) : Prop where
  valid : ∀ i < c.target, c.dst i = true
  length_add : c.got.length + c.n = c.target
  newline_notMem : newline ∉ c.got
  eof_notMem : ctrl 'D' ∉ c.got

theorem Call.Ok.le {c : Call} (h : c.Ok) : c.n ≤ c.target := h.length_add ▸ Nat.le_add_left _ _

/-! ### The console and the editor -/

/-- The console and the editor take the same step. -/
theorem step_alike {s t : Cons × Desk N} {e : Event N} {d : Editor} (h : Shows s.1 d)
    (hcalls : s.2.Calls Call.Ok) (ht : step console s e = some t) :
    ∃ d', step editor (d, s.2) e = some (d', t.2) ∧ Shows t.1 d' := by
  cases e with
  | intr c =>
    obtain ⟨hshows, hwake⟩ := consoleintr_shows c h
    cases ht
    exact ⟨_, by rw [step, editor, ← hwake]; rfl, hshows⟩
  | consoleread j n dst =>
    rw [step] at ht ⊢
    dsimp only
    split at ht
    · cases ht
      exact ⟨d, rfl, h⟩
    · cases ht
  | run j =>
    rw [step] at ht ⊢
    dsimp only
    split at ht
    · next c hc =>
      have hok := hcalls j c (by rw [hc]; rfl)
      obtain ⟨hshows, heq⟩ := readLoop_shows (s.2.killed j) hok.valid hok.le h
      cases ht
      refine ⟨_, ?_, hshows⟩
      change some (_, Desk.served j c (d.read c.target c.n (s.2.killed j)).2.1
        (d.read c.target c.n (s.2.killed j)).2.2 s.2) = _
      rw [← heq]
      rfl
    · cases ht
  | kill j =>
    cases ht
    exact ⟨d, rfl, h⟩

end Xv6.Console

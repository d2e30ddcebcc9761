import Mathlib.Algebra.BigOperators.Group.Finset.Piecewise
import Mathlib.Order.Nat

/-!
# Sequential processes with channels

A `Script` is what a process does: it posts receives, sends to other processes and waits for the
messages, and each of these calls can report an error. The processes of a `Net` run in any
order. The messages from one process to another one stay in order. A message may be buffered, but
it need not be: then the sender waits until the receive for it is posted.

A `Plan` lists for each process what it posts, sends and receives, with times. When the plans
of the processes fit together and each message is sent after its receive is posted and received
after it was sent, every run goes on until all the processes have returned (`Plan.computes`).
-/

namespace Ulfm

open List Function Option Prod

/-- A process with messages of the type `M` that returns an `α`. -/
inductive Script (M α : Type) where
  /-- It has returned. -/
  | done (a : α)
  /-- It has returned an error code. -/
  | error
  /-- It has done something undefined. -/
  | fault
  /-- A receive is posted. -/
  | post (src : ℕ) (next : Bool → Script M α)
  | send (dst : ℕ) (msg : M) (next : Bool → Script M α)
  /-- The first receive that is posted and not yet complete is waited for. -/
  | recv (src : ℕ) (next : Option M → Script M α)

namespace Script

variable {M α β : Type}

def bind : Script M α → (α → Script M β) → Script M β
  | done a, f => f a
  | error, _ => error
  | fault, _ => fault
  | post src next, f => post src fun ok => (next ok).bind f
  | send dst msg next, f => send dst msg fun ok => (next ok).bind f
  | recv src next, f => recv src fun msg => (next msg).bind f

instance : Monad (Script M) where
  pure := done
  bind := bind

theorem bind_done (s : Script M α) : s.bind done = s := by
  induction s with
  | done | error | fault => rfl
  | post src next ih | send dst msg next ih | recv src next ih => exact congrArg _ (funext ih)

theorem bind_assoc {γ : Type} (s : Script M α) (f : α → Script M β) (g : β → Script M γ) :
    (s.bind f).bind g = s.bind fun a => (f a).bind g := by
  induction s with
  | done | error | fault => rfl
  | post src next ih | send dst msg next ih | recv src next ih => exact congrArg _ (funext ih)

instance : LawfulMonad (Script M) := LawfulMonad.mk' _ bind_done (fun _ _ => rfl) bind_assoc

/-- A receive for a message from `src` is posted. -/
def postFor (src : ℕ) : Script M Unit := post src fun ok => if ok then done () else error

def sendTo (dst : ℕ) (msg : M) : Script M Unit :=
  send dst msg fun ok => if ok then done () else error

/-- The wait for a receive, whose error code is returned. -/
def waitFor (src : ℕ) : Script M M :=
  recv src fun msg => match msg with
    | some msg => done msg
    | none => error

/-- A receive that returns when the message is there. -/
def recvFrom (src : ℕ) : Script M M := do
  postFor src
  waitFor src

/-- Something that a process posts, sends or receives. -/
inductive Event (M : Type) where
  | post (src : ℕ)
  | send (dst : ℕ) (msg : M)
  | recv (src : ℕ) (msg : M)

/-- The process at the other end. -/
def Event.peer : Event M → ℕ
  | post src => src
  | send dst _ => dst
  | recv src _ => src

/-- Without errors the process does exactly these calls, and returns `a`. -/
inductive Runs : Script M α → List (Event M) → α → Prop where
  | done (a : α) : Runs (done a) [] a
  | post {src next l} {a : α} : Runs (next true) l a → Runs (post src next) (.post src :: l) a
  | send {dst msg next l} {a : α} : Runs (next true) l a →
      Runs (send dst msg next) (.send dst msg :: l) a
  | recv {src msg next l} {a : α} : Runs (next (some msg)) l a →
      Runs (recv src next) (.recv src msg :: l) a

/-- Receives are posted earlier, before a message is waited for instead of behind it. -/
inductive Earlier : List (Event M) → List (Event M) → Prop where
  | refl (l : List (Event M)) : Earlier l l
  | cons (e : Event M) {l l' : List (Event M)} : Earlier l l' → Earlier (e :: l) (e :: l')
  | swap (src src' : ℕ) (msg : M) (l : List (Event M)) :
      Earlier (.recv src msg :: .post src' :: l) (.post src' :: .recv src msg :: l)
  | trans {l l' l'' : List (Event M)} : Earlier l l' → Earlier l' l'' → Earlier l l''

/-- Without errors the process does these calls in this order, but for receives that it posts
earlier, and returns `a`. -/
def Follows (s : Script M α) (l : List (Event M)) (a : α) : Prop :=
  ∃ l', Earlier l l' ∧ Runs s l' a

section Follows

variable {s : Script M α} {f : α → Script M β} {l l' l₁ l₂ : List (Event M)} {a : α} {b : β}
  {dst src : ℕ} {msg : M}

theorem Earlier.append (h : Earlier l l') (h' : Earlier l₁ l₂) :
    Earlier (l ++ l₁) (l' ++ l₂) := by
  have hleft : ∀ l : List (Event M), Earlier (l ++ l₁) (l ++ l₂) := by
    intro l
    induction l with
    | nil => exact h'
    | cons e l ih => exact .cons e ih
  refine .trans ?_ (hleft l')
  induction h with
  | refl => exact .refl _
  | cons e _ ih => exact .cons e ih
  | swap src src' msg l => exact .swap src src' msg (l ++ l₁)
  | trans _ _ ih ih' => exact .trans ih ih'

theorem Runs.bind (h : Runs s l₁ a) (hf : Runs (f a) l₂ b) : Runs (s.bind f) (l₁ ++ l₂) b := by
  induction h with
  | done a => exact hf
  | post _ ih => exact .post (ih hf)
  | send _ ih => exact .send (ih hf)
  | recv _ ih => exact .recv (ih hf)

theorem Follows.bind (h : Follows s l₁ a) (hf : Follows (f a) l₂ b) :
    Follows (s >>= f) (l₁ ++ l₂) b := by
  obtain ⟨l₁', hearlier, h⟩ := h
  obtain ⟨l₂', hearlier', hf⟩ := hf
  exact ⟨_, hearlier.append hearlier', h.bind hf⟩

theorem Follows.bind_cons {e : Event M} (h : Follows s [e] a) (hf : Follows (f a) l b) :
    Follows (s >>= f) (e :: l) b := h.bind hf

theorem Follows.bind_pure (h : Follows s l a) (hf : Follows (f a) [] b) :
    Follows (s >>= f) l b := by
  rw [← append_nil l]
  exact h.bind hf

theorem Follows.swap {src' : ℕ} (h : Follows s (.post src' :: .recv src msg :: l) a) :
    Follows s (.recv src msg :: .post src' :: l) a := by
  obtain ⟨l', hearlier, h⟩ := h
  exact ⟨l', .trans (.swap src src' msg l) hearlier, h⟩

theorem Runs.follows (h : Runs s l a) : Follows s l a := ⟨l, .refl l, h⟩

theorem follows_pure (a : α) : Follows (pure a : Script M α) [] a := (Runs.done a).follows

theorem follows_postFor : Follows (postFor src : Script M Unit) [.post src] () :=
  (Runs.post (.done ())).follows

theorem follows_sendTo : Follows (sendTo dst msg) [.send dst msg] () :=
  (Runs.send (.done ())).follows

theorem follows_waitFor : Follows (waitFor src) [.recv src msg] msg :=
  (Runs.recv (.done msg)).follows

theorem follows_recvFrom : Follows (recvFrom src) [.post src, .recv src msg] msg :=
  follows_postFor.bind_cons follows_waitFor

theorem follows_foldlM {σ : Type} {body : σ → ℕ → Script M σ} (start n : ℕ)
    (trace : ℕ → List (Event M)) (Inv : ℕ → σ → Prop)
    (hbody : ∀ i st, start ≤ i → i < start + n → Inv i st →
      ∃ st', Follows (body st i) (trace i) st' ∧ Inv (i + 1) st')
    {st : σ} (hst : Inv start st) :
    ∃ st', Follows ((range' start n).foldlM body st) ((range' start n).flatMap trace) st' ∧
      Inv (start + n) st' := by
  induction n generalizing start st with
  | zero => exact ⟨st, follows_pure st, hst⟩
  | succ n ih =>
    obtain ⟨st₁, hfirst, hinv⟩ := hbody start st (le_refl _) (by omega) hst
    obtain ⟨st₂, hrest, hend⟩ :=
      ih (start + 1) (fun i st h₁ h₂ => hbody i st (by omega) (by omega)) hinv
    refine ⟨st₂, ?_, by rwa [Nat.add_comm n, ← Nat.add_assoc]⟩
    rw [range'_succ, foldlM_cons, flatMap_cons]
    exact hfirst.bind hrest

end Follows

end Script

open Script

def setAt {β : Type} (f : ℕ → ℕ → β) (p q : ℕ) (b : β) : ℕ → ℕ → β := update f p (update (f p) q b)

/-- Processes with the messages under way between them. -/
structure Net (M α : Type) where
  proc : ℕ → Script M α
  chan : ℕ → ℕ → List M
  /-- The messages that have been sent from one process to another one. -/
  sent : ℕ → ℕ → ℕ
  /-- The receives for them that have been posted. -/
  posted : ℕ → ℕ → ℕ

namespace Net

variable {M α : Type} {n : ℕ}

def init (prog : ℕ → Script M α) : Net M α where
  proc := prog
  chan _ _ := []
  sent _ _ := 0
  posted _ _ := 0

/-- The process `p` goes on with `s`. -/
def setProc (c : Net M α) (p : ℕ) (s : Script M α) : Net M α := { c with proc := update c.proc p s }

/-- One of the `n` processes makes a call, with or without success. -/
inductive Step (n : ℕ) : Net M α → ℕ → Bool → Net M α → Prop where
  | post {c : Net M α} {p src next} (hp : p < n) (h : c.proc p = .post src next) :
      Step n c p true { c.setProc p (next true) with
        posted := setAt c.posted src p (c.posted src p + 1) }
  | send {c : Net M α} {p dst msg next} (hp : p < n) (h : c.proc p = .send dst msg next) :
      Step n c p true { c.setProc p (next true) with
        chan := setAt c.chan p dst (c.chan p dst ++ [msg])
        sent := setAt c.sent p dst (c.sent p dst + 1) }
  | recv {c : Net M α} {p src msg next rest} (hp : p < n) (h : c.proc p = .recv src next)
      (hchan : c.chan src p = msg :: rest) :
      Step n c p true { c.setProc p (next (some msg)) with chan := setAt c.chan src p rest }
  | postError {c : Net M α} {p src next} (hp : p < n) (h : c.proc p = .post src next) :
      Step n c p false (c.setProc p (next false))
  | sendError {c : Net M α} {p dst msg next} (hp : p < n) (h : c.proc p = .send dst msg next) :
      Step n c p false (c.setProc p (next false))
  | recvError {c : Net M α} {p src next} (hp : p < n) (h : c.proc p = .recv src next) :
      Step n c p false (c.setProc p (next none))

/-- The process is not at a send whose receive has not been posted yet. -/
def Unblocked (c : Net M α) (p : ℕ) : Prop :=
  ∀ dst msg next, c.proc p = .send dst msg next → c.sent p dst < c.posted p dst

inductive Run (n : ℕ) : Net M α → ℕ → Net M α → Prop where
  | refl (c : Net M α) : Run n c 0 c
  | tail {c c' c'' : Net M α} {k p : ℕ} : Run n c k c' → Step n c' p true c'' → Run n c (k + 1) c''

end Net

/-- Without errors all the processes return what they should, in whatever order they run and
whichever messages are buffered. -/
structure Computes {M α : Type} (n : ℕ) (prog : ℕ → Script M α) (out : ℕ → α) : Prop where
  progress : ∀ {k : ℕ} {c : Net M α}, Net.Run n (Net.init prog) k c →
    (∀ p < n, c.proc p = .done (out p)) ∨ ∃ p c', Net.Step n c p true c' ∧ c.Unblocked p
  bounded : ∃ N, ∀ {k : ℕ} {c : Net M α}, Net.Run n (Net.init prog) k c → k ≤ N

/-- An event with the time at which it is planned. -/
abbrev TimedEvent (M : Type) : Type := ℕ × Event M

namespace TimedEvent

variable {M : Type}

/-- When a receive for a message from `p` is posted. -/
def postedFor (p : ℕ) : TimedEvent M → Option ℕ
  | (t, .post src) => if src = p then some t else none
  | (_, .send _ _) => none
  | (_, .recv _ _) => none

/-- What is sent to `q`. -/
def sentTo (q : ℕ) : TimedEvent M → Option (ℕ × M)
  | (_, .post _) => none
  | (t, .send dst msg) => if dst = q then some (t, msg) else none
  | (_, .recv _ _) => none

/-- What is received from `p`. -/
def receivedFrom (p : ℕ) : TimedEvent M → Option (ℕ × M)
  | (_, .post _) => none
  | (_, .send _ _) => none
  | (t, .recv src msg) => if src = p then some (t, msg) else none

section

variable {p t : ℕ} {msg : M}

theorem postedFor_self : postedFor p ((t, .post p) : TimedEvent M) = some t := if_pos rfl

theorem sentTo_self : sentTo p (t, .send p msg) = some (t, msg) := if_pos rfl

theorem receivedFrom_self : receivedFrom p (t, .recv p msg) = some (t, msg) := if_pos rfl

end

theorem eq_of_sentTo {e : TimedEvent M} {q : ℕ} {s : ℕ × M} (h : sentTo q e = some s) :
    e = (s.1, .send q s.2) := by
  obtain ⟨t, _ | ⟨dst, msg⟩ | _⟩ := e
  · exact nomatch h
  · simp only [sentTo] at h
    split_ifs at h with hdst
    obtain rfl := some.inj h
    rw [hdst]
  · exact nomatch h

theorem eq_of_postedFor {e : TimedEvent M} {p t : ℕ} (h : postedFor p e = some t) :
    e = (t, .post p) := by
  obtain ⟨t', src | _ | _⟩ := e
  · simp only [postedFor] at h
    split_ifs at h with hsrc
    rw [some.inj h, hsrc]
  · exact nomatch h
  · exact nomatch h

/-- A send or receive is not after the events behind it. -/
def InOrder (e e' : TimedEvent M) : Prop := (∃ src, e.2 = .post src) ∨ e.1 ≤ e'.1

/-- The message `s` is received as `r`, and later. -/
def Matches (s r : ℕ × M) : Prop := s.1 < r.1 ∧ s.2 = r.2

/-- The same events, of which those of a kind stay in their order. -/
structure SameViews (l r : List (TimedEvent M)) : Prop where
  perm : l.Perm r
  sorted : l.Pairwise InOrder → r.Pairwise InOrder
  posted (p : ℕ) : r.filterMap (postedFor p) = l.filterMap (postedFor p)
  sent (q : ℕ) : r.filterMap (sentTo q) = l.filterMap (sentTo q)
  received (p : ℕ) : r.filterMap (receivedFrom p) = l.filterMap (receivedFrom p)

namespace SameViews

variable {l r r' : List (TimedEvent M)}

theorem refl (l : List (TimedEvent M)) : SameViews l l :=
  ⟨.refl l, id, fun _ => rfl, fun _ => rfl, fun _ => rfl⟩

theorem trans (h : SameViews l r) (h' : SameViews r r') : SameViews l r' where
  perm := h.perm.trans h'.perm
  sorted hl := h'.sorted (h.sorted hl)
  posted p := (h'.posted p).trans (h.posted p)
  sent q := (h'.sent q).trans (h.sent q)
  received p := (h'.received p).trans (h.received p)

theorem cons (e : TimedEvent M) (h : SameViews l r) : SameViews (e :: l) (e :: r) where
  perm := h.perm.cons e
  sorted hl := by
    rw [pairwise_cons] at hl ⊢
    exact ⟨fun e' he' => hl.1 e' (h.perm.mem_iff.2 he'), h.sorted hl.2⟩
  posted p := by rw [filterMap_cons, filterMap_cons, h.posted]
  sent q := by rw [filterMap_cons, filterMap_cons, h.sent]
  received p := by rw [filterMap_cons, filterMap_cons, h.received]

theorem swap (t t' src src' : ℕ) (msg : M) (l : List (TimedEvent M)) :
    SameViews ((t, .recv src msg) :: (t', .post src') :: l)
      ((t', .post src') :: (t, .recv src msg) :: l) where
  perm := .swap _ _ l
  sorted hl := by
    simp only [pairwise_cons, mem_cons] at hl ⊢
    refine ⟨?_, fun e he => hl.1 e (.inr he), hl.2.2⟩
    rintro e (rfl | he)
    · exact .inl ⟨src', rfl⟩
    · exact hl.2.1 e he
  posted _ := rfl
  sent _ := rfl
  received _ := rfl

end SameViews

end TimedEvent

open TimedEvent

theorem Script.Earlier.exists_timed {M : Type} {l : List (TimedEvent M)} {l' : List (Event M)}
    (h : Earlier (l.map Prod.snd) l') : ∃ r, r.map Prod.snd = l' ∧ SameViews l r := by
  generalize hl : l.map snd = evs at h
  induction h generalizing l with
  | refl => exact ⟨l, hl, .refl l⟩
  | cons e _ ih =>
    obtain ⟨te, l₀, rfl, rfl, hl₀⟩ := map_eq_cons_iff.1 hl
    obtain ⟨r, hr, hviews⟩ := ih hl₀
    exact ⟨te :: r, congrArg (te.2 :: ·) hr, hviews.cons te⟩
  | swap src src' msg evs =>
    obtain ⟨⟨t, _⟩, l₁, rfl, rfl, hl₁⟩ := map_eq_cons_iff.1 hl
    obtain ⟨⟨t', _⟩, l₀, rfl, rfl, rfl⟩ := map_eq_cons_iff.1 hl₁
    exact ⟨_, rfl, .swap t t' src src' msg l₀⟩
  | trans _ _ ih ih' =>
    obtain ⟨r, hr, hviews⟩ := ih hl
    obtain ⟨r', hr', hviews'⟩ := ih' hr
    exact ⟨r', hr', hviews.trans hviews'⟩

/-- Every send that is left has a receive, which is posted already or is planned to be posted
earlier. -/
def Credited {M : Type} (sent posted : ℕ) (sends : List (ℕ × M)) (posts : List ℕ) : Prop :=
  ∀ i s, sends[i]? = some s →
    sent + i < posted ∨ ∃ t, posts[sent + i - posted]? = some t ∧ t < s.1

namespace Credited

variable {M : Type} {sent posted : ℕ} {sends : List (ℕ × M)} {posts : List ℕ} {t : ℕ}

theorem of_forall₂ (h : List.Forall₂ (fun s t => t < s.1) sends posts) :
    Credited 0 0 sends posts := by
  intro i s hs
  rw [Nat.zero_add, Nat.sub_zero]
  refine .inr ?_
  induction h generalizing i with
  | nil => exact nomatch hs
  | @cons s' t _ _ hlt _ ih =>
    cases i with
    | zero =>
      obtain rfl := some.inj hs
      exact ⟨t, rfl, hlt⟩
    | succ i => exact ih i hs

theorem send {s : ℕ × M} (h : Credited sent posted (s :: sends) posts) :
    Credited (sent + 1) posted sends posts := by
  intro i s' hs'
  rw [Nat.add_right_comm, Nat.add_assoc]
  exact h (i + 1) s' hs'

theorem post (h : Credited sent posted sends (t :: posts)) :
    Credited sent (posted + 1) sends posts := by
  intro i s hs
  rcases h i s hs with hlt | ⟨t', ht', hlt⟩
  · exact .inl (Nat.lt_succ_of_lt hlt)
  · rcases Nat.lt_or_ge (sent + i) (posted + 1) with hle | hge
    · exact .inl hle
    · rw [show sent + i - posted = sent + i - (posted + 1) + 1 by omega] at ht'
      exact .inr ⟨t', ht', hlt⟩

end Credited

/-- What the processes still have to do fits together with the messages under way. -/
structure Plan {M α : Type} (n : ℕ) (c : Net M α) (out : ℕ → α)
    (rest : ℕ → List (TimedEvent M)) (queued : ℕ → ℕ → List (ℕ × M)) : Prop where
  runs : ∀ {p : ℕ}, p < n → Runs (c.proc p) ((rest p).map Prod.snd) (out p)
  sorted : ∀ {p : ℕ}, p < n → (rest p).Pairwise InOrder
  inside : ∀ {p : ℕ}, p < n → ∀ e ∈ rest p, e.2.peer < n
  queued_eq : ∀ {p q : ℕ}, p < n → q < n → (queued p q).map Prod.snd = c.chan p q
  matched : ∀ {p q : ℕ}, p < n → q < n → List.Forall₂ Matches
    (queued p q ++ (rest p).filterMap (sentTo q)) ((rest q).filterMap (receivedFrom p))
  credited : ∀ {p q : ℕ}, p < n → q < n → Credited (c.sent p q) (c.posted p q)
    ((rest p).filterMap (sentTo q)) ((rest q).filterMap (postedFor p))

namespace Plan

variable {M α : Type} {n : ℕ} {c c' : Net M α} {out : ℕ → α} {rest : ℕ → List (TimedEvent M)}
  {queued : ℕ → ℕ → List (ℕ × M)} {p t : ℕ} {e : Event M} {r : List (TimedEvent M)}

section

variable {β : Type} {f : ℕ → ℕ → β} {q a b : ℕ} {x : β}

theorem setAt_self : setAt f p q x p q = x := by rw [setAt, update_self, update_self]

theorem setAt_of_ne (h : ¬(a = p ∧ b = q)) : setAt f p q x a b = f a b := by
  rw [setAt]
  by_cases hap : a = p
  · subst hap
    rw [update_self, update_of_ne fun hbq => h ⟨rfl, hbq⟩]
  · rw [update_of_ne hap]

theorem filterMap_update {g : TimedEvent M → Option β} (hrest : rest p = (t, e) :: r)
    (hg : a = p → g (t, e) = none) : (update rest p r a).filterMap g = (rest a).filterMap g := by
  by_cases hap : a = p
  · subst hap
    rw [update_self, hrest, filterMap_cons_none (hg rfl)]
  · rw [update_of_ne hap]

end

section

variable (h : Plan n c out rest queued)
include h

theorem update {s : Script M α} (hruns : Runs s (r.map Prod.snd) (out p))
    (hrest : rest p = (t, e) :: r) {chan : ℕ → ℕ → List M} {sent posted : ℕ → ℕ → ℕ}
    {queued' : ℕ → ℕ → List (ℕ × M)}
    (hqueued : ∀ {a b : ℕ}, a < n → b < n → (queued' a b).map Prod.snd = chan a b)
    (hmatched : ∀ {a b : ℕ}, a < n → b < n → List.Forall₂ Matches
      (queued' a b ++ (Function.update rest p r a).filterMap (sentTo b))
      ((Function.update rest p r b).filterMap (receivedFrom a)))
    (hcredited : ∀ {a b : ℕ}, a < n → b < n → Credited (sent a b) (posted a b)
      ((Function.update rest p r a).filterMap (sentTo b))
      ((Function.update rest p r b).filterMap (postedFor a))) :
    Plan n ⟨Function.update c.proc p s, chan, sent, posted⟩ out (Function.update rest p r)
      queued' where
  runs {a} ha := by
    by_cases hap : a = p
    · subst hap
      simpa only [update_self] using hruns
    · simpa only [update_of_ne hap] using h.runs ha
  sorted {a} ha := by
    have hsorted := h.sorted ha
    by_cases hap : a = p
    · subst hap
      rw [hrest, pairwise_cons] at hsorted
      rw [update_self]
      exact hsorted.2
    · rwa [update_of_ne hap]
  inside {a} ha e' he' := by
    by_cases hap : a = p
    · subst hap
      rw [update_self] at he'
      exact h.inside ha e' (hrest ▸ mem_cons_of_mem _ he')
    · rw [update_of_ne hap] at he'
      exact h.inside ha e' he'
  queued_eq := hqueued
  matched := hmatched
  credited := hcredited

theorem step_post (hp : p < n) {src : ℕ} {next : Bool → Script M α}
    (hproc : c.proc p = .post src next) :
    ∃ e r, rest p = e :: r ∧ Plan n { c.setProc p (next true) with
      posted := setAt c.posted src p (c.posted src p + 1) } out
      (Function.update rest p r) queued := by
  have hf := h.runs hp
  rw [hproc] at hf
  generalize hl : (rest p).map snd = l at hf
  cases hf with
  | post hf =>
    obtain ⟨⟨t, _⟩, r, hrest, rfl, rfl⟩ := map_eq_cons_iff.1 hl
    refine ⟨_, r, hrest, h.update hf hrest h.queued_eq
      (fun {a b} ha hb => ?_) fun {a b} ha hb => ?_⟩
    · rw [filterMap_update hrest fun _ => rfl, filterMap_update hrest fun _ => rfl]
      exact h.matched ha hb
    · have hcredited := h.credited ha hb
      rw [filterMap_update hrest fun _ => rfl]
      by_cases hab : a = src ∧ b = p
      · obtain ⟨rfl, rfl⟩ := hab
        rw [hrest, filterMap_cons_some postedFor_self] at hcredited
        rw [setAt_self, update_self]
        exact hcredited.post
      · rw [setAt_of_ne hab,
          filterMap_update hrest fun hbp => if_neg fun hsrc => hab ⟨hsrc.symm, hbp⟩]
        exact hcredited

theorem step_send (hp : p < n) {dst : ℕ} {msg : M} {next : Bool → Script M α}
    (hproc : c.proc p = .send dst msg next) :
    ∃ e r queued', rest p = e :: r ∧ Plan n { c.setProc p (next true) with
      chan := setAt c.chan p dst (c.chan p dst ++ [msg])
      sent := setAt c.sent p dst (c.sent p dst + 1) } out (Function.update rest p r) queued' := by
  have hf := h.runs hp
  rw [hproc] at hf
  generalize hl : (rest p).map snd = l at hf
  cases hf with
  | send hf =>
    obtain ⟨⟨t, _⟩, r, hrest, rfl, rfl⟩ := map_eq_cons_iff.1 hl
    have hview : (rest p).filterMap (sentTo dst) = (t, msg) :: r.filterMap (sentTo dst) := by
      rw [hrest, filterMap_cons_some sentTo_self]
    have hother {a b : ℕ} (hab : ¬(a = p ∧ b = dst)) :
        (Function.update rest p r a).filterMap (sentTo b) = (rest a).filterMap (sentTo b) :=
      filterMap_update hrest fun hap => if_neg fun hdst => hab ⟨hap, hdst.symm⟩
    refine ⟨_, r, setAt queued p dst (queued p dst ++ [(t, msg)]), hrest,
      h.update hf hrest (fun {a b} ha hb => ?_) (fun {a b} ha hb => ?_) fun {a b} ha hb => ?_⟩
    · have hqueued := h.queued_eq ha hb
      by_cases hab : a = p ∧ b = dst
      · obtain ⟨rfl, rfl⟩ := hab
        rw [setAt_self, setAt_self, map_append, hqueued]
        rfl
      · rw [setAt_of_ne hab, setAt_of_ne hab, hqueued]
    · have hmatched := h.matched ha hb
      rw [filterMap_update (g := receivedFrom a) hrest fun _ => rfl]
      by_cases hab : a = p ∧ b = dst
      · obtain ⟨rfl, rfl⟩ := hab
        -- the message only moves from the plan to the channel
        rw [hview] at hmatched
        rw [setAt_self, update_self, append_assoc]
        exact hmatched
      · rw [setAt_of_ne hab, hother hab]
        exact hmatched
    · have hcredited := h.credited ha hb
      rw [filterMap_update (g := postedFor a) hrest fun _ => rfl]
      by_cases hab : a = p ∧ b = dst
      · obtain ⟨rfl, rfl⟩ := hab
        rw [hview] at hcredited
        rw [setAt_self, update_self]
        exact hcredited.send
      · rw [setAt_of_ne hab, hother hab]
        exact hcredited

theorem step_recv (hp : p < n) {src : ℕ} {msg : M} {next : Option M → Script M α} {ms : List M}
    (hproc : c.proc p = .recv src next) (hchan : c.chan src p = msg :: ms) :
    ∃ e r queued', rest p = e :: r ∧ Plan n { c.setProc p (next (some msg)) with
      chan := setAt c.chan src p ms } out (Function.update rest p r) queued' := by
  have hf := h.runs hp
  rw [hproc] at hf
  generalize hl : (rest p).map snd = l at hf
  cases hf with
  | @recv _ msg' _ _ _ hf =>
    obtain ⟨⟨t, _⟩, r, hrest, rfl, rfl⟩ := map_eq_cons_iff.1 hl
    have hsrc : src < n := h.inside hp (t, .recv src msg') (hrest ▸ mem_cons_self)
    have hq := h.queued_eq hsrc hp
    rw [hchan] at hq
    obtain ⟨⟨t', m'⟩, qs, hqueued, rfl, rfl⟩ := map_eq_cons_iff.1 hq
    -- the plan says which message comes first
    have hhead := h.matched hsrc hp
    rw [hqueued, hrest, cons_append, filterMap_cons_some receivedFrom_self,
      forall₂_cons] at hhead
    obtain ⟨⟨-, hmsg⟩, htail⟩ := hhead
    obtain rfl : m' = msg' := hmsg
    refine ⟨_, r, setAt queued src p qs, hrest,
      h.update hf hrest (fun {a b} ha hb => ?_) (fun {a b} ha hb => ?_) fun {a b} ha hb => ?_⟩
    · by_cases hab : a = src ∧ b = p
      · obtain ⟨rfl, rfl⟩ := hab
        rw [setAt_self, setAt_self]
      · rw [setAt_of_ne hab, setAt_of_ne hab, h.queued_eq ha hb]
    · rw [filterMap_update hrest fun _ => rfl]
      by_cases hab : a = src ∧ b = p
      · obtain ⟨rfl, rfl⟩ := hab
        rw [setAt_self, update_self]
        exact htail
      · rw [setAt_of_ne hab, filterMap_update hrest fun hbp => if_neg fun hs => hab ⟨hs.symm, hbp⟩]
        exact h.matched ha hb
    · rw [filterMap_update hrest fun _ => rfl, filterMap_update hrest fun _ => rfl]
      exact h.credited ha hb

theorem step (hstep : Net.Step n c p true c') :
    p < n ∧ ∃ e r queued', rest p = e :: r ∧ Plan n c' out (Function.update rest p r) queued' := by
  cases hstep with
  | post hp hproc =>
    obtain ⟨e, r, hrest, hplan⟩ := h.step_post hp hproc
    exact ⟨hp, e, r, queued, hrest, hplan⟩
  | send hp hproc => exact ⟨hp, h.step_send hp hproc⟩
  | recv hp hproc hchan => exact ⟨hp, h.step_recv hp hproc hchan⟩

/-- The process `p` cannot go on with `e`, unless a message is buffered. -/
def Stuck (c : Net M α) (p : ℕ) : Event M → Prop
  | .post _ => False
  | .send dst _ => c.posted p dst ≤ c.sent p dst
  | .recv src _ => c.chan src p = []

theorem waits (hp : p < n) (hblocked : ¬∃ c', Net.Step n c p true c' ∧ c.Unblocked p) :
    c.proc p = .done (out p) ∨ ∃ t e r, rest p = (t, e) :: r ∧ Stuck c p e := by
  have hf := h.runs hp
  generalize hl : (rest p).map snd = l at hf
  generalize hs : c.proc p = s at hf
  cases hf with
  | done => exact .inl rfl
  | post hf =>
    exact absurd ⟨_, .post hp hs, fun dst msg next hsend => nomatch hs.symm.trans hsend⟩ hblocked
  | @send dst msg next _ _ hf =>
    obtain ⟨⟨t, e⟩, r, hrest, rfl, -⟩ := map_eq_cons_iff.1 hl
    refine .inr ⟨t, _, r, hrest, not_lt.1 fun hlt => hblocked ⟨_, .send hp hs, ?_⟩⟩
    intro dst' msg' next' hsend
    obtain ⟨rfl, -, -⟩ := Script.send.inj (hs.symm.trans hsend)
    exact hlt
  | @recv src msg next _ _ hf =>
    obtain ⟨⟨t, e⟩, r, hrest, rfl, -⟩ := map_eq_cons_iff.1 hl
    refine .inr ⟨t, _, r, hrest, ?_⟩
    cases hchan : c.chan src p with
    | nil => exact hchan
    | cons m ms =>
      exact absurd ⟨_, .recv hp hs hchan, fun dst msg next hsend => nomatch hs.symm.trans hsend⟩
        hblocked

/-- What a process waits for is planned at an earlier time. -/
theorem exists_earlier (hp : p < n) (hrest : rest p = (t, e) :: r) (hstuck : Stuck c p e) :
    ∃ q < n, ∃ e' ∈ rest q, e'.1 < t := by
  have hpeer : e.peer < n := h.inside hp (t, e) (hrest ▸ mem_cons_self)
  cases e with
  | post src => exact hstuck.elim
  | send dst msg =>
    have hdst : dst < n := hpeer
    have hcredited := h.credited hp hdst 0 (t, msg)
    rw [hrest, filterMap_cons_some sentTo_self] at hcredited
    rcases hcredited rfl with hlt | ⟨t', ht', hlt⟩
    · exact absurd hlt hstuck.not_gt
    · obtain ⟨e', he', hview⟩ := mem_filterMap.1 (mem_of_getElem? ht')
      rw [eq_of_postedFor hview] at he'
      exact ⟨dst, hdst, _, he', hlt⟩
  | recv src msg =>
    have hsrc : src < n := hpeer
    have hqueued := h.queued_eq hsrc hp
    have hmatched := h.matched hsrc hp
    rw [show c.chan src p = [] from hstuck, map_eq_nil_iff] at hqueued
    rw [hqueued, nil_append, hrest, filterMap_cons_some receivedFrom_self] at hmatched
    obtain ⟨s, ss, hs, -, hview⟩ := forall₂_cons_right_iff.1 hmatched
    have hmem : s ∈ (rest src).filterMap (sentTo p) := hview ▸ mem_cons_self
    obtain ⟨e', he', hsent⟩ := mem_filterMap.1 hmem
    rw [eq_of_sentTo hsent] at he'
    exact ⟨src, hsrc, _, he', hs.1⟩

theorem exists_step :
    (∀ p < n, c.proc p = .done (out p)) ∨ ∃ p c', Net.Step n c p true c' ∧ c.Unblocked p := by
  by_contra hcon
  obtain ⟨hdone, hblocked⟩ := not_or.1 hcon
  have hwaits : ∀ p < n, c.proc p = .done (out p) ∨
      ∃ t e r, rest p = (t, e) :: r ∧ Stuck c p e :=
    fun p hp => h.waits hp fun hex => hblocked ⟨p, hex⟩
  have hex : ∃ t, ∃ p < n, ∃ e r, rest p = (t, e) :: r ∧ Stuck c p e := by
    push Not at hdone
    obtain ⟨p, hp, hne⟩ := hdone
    obtain ⟨t, hstuck⟩ := (hwaits p hp).resolve_left hne
    exact ⟨t, p, hp, hstuck⟩
  classical
  obtain ⟨p, hp, e, r, hrest, hstuck⟩ := Nat.find_spec hex
  set t := Nat.find hex with ht
  obtain ⟨q, hq, e', he', hlt⟩ := h.exists_earlier hp hrest hstuck
  -- the other process waits for something even earlier
  rcases hwaits q hq with hqdone | ⟨t₁, e₁, r₁, hrest₁, hstuck₁⟩
  · have hf := h.runs hq
    rw [hqdone] at hf
    generalize hl : (rest q).map snd = l at hf
    cases hf
    rw [map_eq_nil_iff] at hl
    rw [hl] at he'
    exact absurd he' not_mem_nil
  · have hle : t₁ ≤ e'.1 := by
      have hsorted := h.sorted hq
      rw [hrest₁, pairwise_cons] at hsorted
      rw [hrest₁] at he'
      rcases mem_cons.1 he' with rfl | he'
      · exact le_refl _
      · rcases hsorted.1 e' he' with ⟨src, hpost⟩ | hle
        · obtain rfl : e₁ = .post src := hpost
          exact hstuck₁.elim
        · exact hle
    have hmin := Nat.find_min' hex ⟨q, hq, e₁, r₁, hrest₁, hstuck₁⟩
    omega

end

theorem computes {prog : ℕ → Script M α} (h : Plan n (Net.init prog) out rest queued) :
    Computes n prog out := by
  have hrun : ∀ {k : ℕ} {c : Net M α}, Net.Run n (Net.init prog) k c →
      ∃ rest' queued', Plan n c out rest' queued' ∧
        ∑ p ∈ Finset.range n, (rest' p).length + k = ∑ p ∈ Finset.range n, (rest p).length := by
    intro k c hrun
    induction hrun with
    | refl => exact ⟨rest, queued, h, rfl⟩
    | @tail _ _ k p _ hstep ih =>
      obtain ⟨rest', queued', hplan, hsum⟩ := ih
      obtain ⟨hp, e, r, queued'', hrest, hplan'⟩ := hplan.step hstep
      refine ⟨_, _, hplan', ?_⟩
      have hlength : ∀ q, (Function.update rest' p r q).length =
          Function.update (fun q => (rest' q).length) p r.length q := by
        intro q
        by_cases hqp : q = p
        · rw [hqp, update_self, update_self]
        · rw [update_of_ne hqp, update_of_ne hqp]
      simp only [hlength]
      rw [Finset.sum_update_of_mem (Finset.mem_range.2 hp)]
      rw [← Finset.add_sum_erase _ _ (Finset.mem_range.2 hp), hrest, length_cons] at hsum
      rw [Finset.sdiff_singleton_eq_erase]
      omega
  constructor
  · intro k c hk
    obtain ⟨_, _, hplan, -⟩ := hrun hk
    exact hplan.exists_step
  · refine ⟨∑ p ∈ Finset.range n, (rest p).length, fun {k c} hk => ?_⟩
    obtain ⟨_, _, -, hsum⟩ := hrun hk
    omega

end Plan

theorem computes_of_trace {M α : Type} {n : ℕ} {prog : ℕ → Script M α} {out : ℕ → α}
    (trace : ℕ → List (TimedEvent M))
    (hfollows : ∀ {p : ℕ}, p < n → Follows (prog p) ((trace p).map Prod.snd) (out p))
    (hsorted : ∀ {p : ℕ}, p < n → (trace p).Pairwise fun e e' => e.1 ≤ e'.1)
    (hinside : ∀ {p : ℕ}, p < n → ∀ e ∈ trace p, e.2.peer < n)
    (hposted : ∀ {p q : ℕ}, p < n → q < n → List.Forall₂ (fun s t => t < s.1)
      ((trace p).filterMap (sentTo q)) ((trace q).filterMap (postedFor p)))
    (hmatched : ∀ {p q : ℕ}, p < n → q < n → List.Forall₂ Matches
      ((trace p).filterMap (sentTo q)) ((trace q).filterMap (receivedFrom p))) :
    Computes n prog out := by
  have hex : ∀ p < n, ∃ r : List (TimedEvent M),
      Runs (prog p) (r.map snd) (out p) ∧ SameViews (trace p) r := by
    intro p hp
    obtain ⟨l, hearlier, hruns⟩ := hfollows hp
    obtain ⟨r, rfl, hviews⟩ := hearlier.exists_timed
    exact ⟨r, hruns, hviews⟩
  choose! rest hruns hviews using hex
  have hplan : Plan n (Net.init prog) out rest fun _ _ => [] :=
    { runs := hruns _
      sorted := fun hp => (hviews _ hp).sorted ((hsorted hp).imp .inr)
      inside := fun hp e he => hinside hp e ((hviews _ hp).perm.mem_iff.2 he)
      queued_eq := fun _ _ => rfl
      matched := fun hp hq => by
        rw [nil_append, (hviews _ hp).sent, (hviews _ hq).received]
        exact hmatched hp hq
      credited := fun hp hq => by
        rw [(hviews _ hp).sent, (hviews _ hq).posted]
        exact .of_forall₂ (hposted hp hq) }
  exact hplan.computes

section Rounds

variable {M : Type} {f : ℕ → List (TimedEvent M)} {W : ℕ}

theorem pairwise_rounds (hsorted : ∀ i, (f i).Pairwise fun e e' => e.1 ≤ e'.1)
    (hround : ∀ i, ∀ e ∈ f i, i * W ≤ e.1 ∧ e.1 < (i + 1) * W) (start n : ℕ) :
    ((List.range' start n).flatMap f).Pairwise fun e e' => e.1 ≤ e'.1 := by
  have hlt : (range' start n).Pairwise (· < ·) := pairwise_lt_range'
  rw [pairwise_flatMap]
  refine ⟨fun i _ => hsorted i, hlt.imp fun {i j} hij e he e' he' => ?_⟩
  have hle : (i + 1) * W ≤ j * W := Nat.mul_le_mul_right W hij
  exact (hround i e he).2.le.trans (hle.trans (hround j e' he').1)

theorem forall₂_flatMap {α β : Type} {R : α → β → Prop} {g : ℕ → List α} {h : ℕ → List β}
    {l : List ℕ} (hround : ∀ i ∈ l, List.Forall₂ R (g i) (h i)) :
    List.Forall₂ R (l.flatMap g) (l.flatMap h) := by
  induction l with
  | nil => exact .nil
  | cons i l ih =>
    rw [flatMap_cons, flatMap_cons]
    refine rel_append (hround i mem_cons_self) (ih fun j hj => ?_)
    exact hround j (mem_cons_of_mem i hj)

/-- What a process does in a round: it posts at most one receive, sends at most one message, and
then waits for the one that it receives. -/
def roundEvents (snd rcv : Option (ℕ × M)) : List (Event M) :=
  (rcv.map fun m => .post m.1).toList ++ (snd.map fun m => .send m.1 m.2).toList ++
    (rcv.map fun m => .recv m.1 m.2).toList

/-- The events of the round `t`, with times. -/
def timedRound (t : ℕ) (snd rcv : Option (ℕ × M)) : List (TimedEvent M) :=
  (rcv.map fun m => (3 * t, .post m.1)).toList ++
    (snd.map fun m => (3 * t + 1, .send m.1 m.2)).toList ++
    (rcv.map fun m => (3 * t + 2, .recv m.1 m.2)).toList

variable {t p q : ℕ} {snd rcv snd' rcv' : Option (ℕ × M)}

theorem map_timedRound : (timedRound t snd rcv).map Prod.snd = roundEvents snd rcv := by
  cases snd <;> cases rcv <;> rfl

theorem mem_timedRound {e : TimedEvent M} (he : e ∈ timedRound t snd rcv) :
    (∃ m, rcv = some m ∧ e = (3 * t, .post m.1)) ∨
      (∃ m, snd = some m ∧ e = (3 * t + 1, .send m.1 m.2)) ∨
      ∃ m, rcv = some m ∧ e = (3 * t + 2, .recv m.1 m.2) := by
  rw [timedRound, mem_append, mem_append] at he
  rcases he with (he | he) | he <;> obtain ⟨m, hm, rfl⟩ := map_eq_some_iff.1 (mem_toList.1 he)
  · exact .inl ⟨m, hm, rfl⟩
  · exact .inr (.inl ⟨m, hm, rfl⟩)
  · exact .inr (.inr ⟨m, hm, rfl⟩)

theorem timedRound_time : ∀ e ∈ timedRound t snd rcv, t * 3 ≤ e.1 ∧ e.1 < (t + 1) * 3 := by
  intro e he
  rcases mem_timedRound he with ⟨m, -, rfl⟩ | ⟨m, -, rfl⟩ | ⟨m, -, rfl⟩ <;> dsimp only <;> omega

theorem timedRound_sorted : (timedRound t snd rcv).Pairwise fun e e' => e.1 ≤ e'.1 := by
  cases snd <;> cases rcv <;> simp [timedRound]

theorem timedRound_sentTo : (timedRound t snd rcv).filterMap (sentTo q) =
    (snd.bind fun m => if m.1 = q then some (3 * t + 1, m.2) else none).toList := by
  cases snd with
  | none => cases rcv <;> rfl
  | some m => by_cases h : m.1 = q <;> cases rcv <;> simp [timedRound, filterMap_cons, sentTo, h]

theorem timedRound_postedFor : (timedRound t snd rcv).filterMap (postedFor p) =
    (rcv.bind fun m => if m.1 = p then some (3 * t) else none).toList := by
  cases rcv with
  | none => cases snd <;> rfl
  | some m => by_cases h : m.1 = p <;> cases snd <;> simp [timedRound, filterMap_cons, postedFor, h]

theorem timedRound_receivedFrom : (timedRound t snd rcv).filterMap (receivedFrom p) =
    (rcv.bind fun m => if m.1 = p then some (3 * t + 2, m.2) else none).toList := by
  cases rcv with
  | none => cases snd <;> rfl
  | some m =>
    by_cases h : m.1 = p <;> cases snd <;> simp [timedRound, filterMap_cons, receivedFrom, h]

theorem timedRound_matched (h : ∀ msg, snd = some (q, msg) ↔ rcv' = some (p, msg)) :
    List.Forall₂ (fun s t => t < s.1) ((timedRound t snd rcv).filterMap (sentTo q))
      ((timedRound t snd' rcv').filterMap (postedFor p)) ∧
    List.Forall₂ Matches ((timedRound t snd rcv).filterMap (sentTo q))
      ((timedRound t snd' rcv').filterMap (receivedFrom p)) := by
  rw [timedRound_sentTo, timedRound_postedFor, timedRound_receivedFrom]
  by_cases hex : ∃ msg, snd = some (q, msg)
  · obtain ⟨msg, hmsg⟩ := hex
    rw [hmsg, (h msg).1 hmsg]
    simp [Matches]
  · have hsnd (m : ℕ × M) (hm : snd = some m) : m.1 ≠ q := fun hq => hex ⟨m.2, by rw [hm, ← hq]⟩
    have hrcv (m : ℕ × M) (hm : rcv' = some m) : m.1 ≠ p :=
      fun hp => hex ⟨m.2, (h m.2).2 (by rw [hm, ← hp])⟩
    have hnone : (snd.bind fun m => if m.1 = q then some (3 * t + 1, m.2) else none) = none :=
      bind_eq_none_iff.2 fun m hm => if_neg (hsnd m hm)
    have hposted : (rcv'.bind fun m => if m.1 = p then some (3 * t) else none) = none :=
      bind_eq_none_iff.2 fun m hm => if_neg (hrcv m hm)
    have hreceived : (rcv'.bind fun m => if m.1 = p then some (3 * t + 2, m.2) else none) = none :=
      bind_eq_none_iff.2 fun m hm => if_neg (hrcv m hm)
    rw [hnone, hposted, hreceived]
    exact ⟨.nil, .nil⟩

theorem computes_of_rounds {α : Type} {n : ℕ} {prog : ℕ → Script M α} {out : ℕ → α} (T : ℕ)
    (snd rcv : ℕ → ℕ → Option (ℕ × M))
    (hfollows : ∀ p < n, Follows (prog p)
      ((List.range' 0 T).flatMap fun t => roundEvents (snd p t) (rcv p t)) (out p))
    (hsnd : ∀ p < n, ∀ t < T, ∀ dst msg, snd p t = some (dst, msg) → dst < n)
    (hrcv : ∀ p < n, ∀ t < T, ∀ src msg, rcv p t = some (src, msg) → src < n)
    (hmatched : ∀ p < n, ∀ q < n, ∀ t < T, ∀ msg,
      snd p t = some (q, msg) ↔ rcv q t = some (p, msg)) :
    Computes n prog out := by
  have hround {p q t : ℕ} (hp : p < n) (hq : q < n) (ht : t ∈ range' 0 T) :=
    @timedRound_matched M t p q _ (rcv p t) (snd q t) _ fun msg =>
      hmatched p hp q hq t (by have := mem_range'_1.1 ht; omega) msg
  refine computes_of_trace
    (fun p => (range' 0 T).flatMap fun t => timedRound t (snd p t) (rcv p t)) (fun {p} hp => ?_)
    (fun _ => pairwise_rounds (fun _ => timedRound_sorted) (fun _ => timedRound_time) 0 T)
    (fun {p} hp e he => ?_) (fun {p q} hp hq => ?_) fun {p q} hp hq => ?_
  · rw [map_flatMap]
    simp only [map_timedRound]
    exact hfollows p hp
  · obtain ⟨t, ht, he⟩ := mem_flatMap.1 he
    rw [mem_range'_1] at ht
    rcases mem_timedRound he with ⟨m, hm, rfl⟩ | ⟨m, hm, rfl⟩ | ⟨m, hm, rfl⟩
    · exact hrcv p hp t (by omega) _ _ hm
    · exact hsnd p hp t (by omega) _ _ hm
    · exact hrcv p hp t (by omega) _ _ hm
  · rw [filterMap_flatMap, filterMap_flatMap]
    exact forall₂_flatMap fun t ht => (hround hp hq ht).1
  · rw [filterMap_flatMap, filterMap_flatMap]
    exact forall₂_flatMap fun t ht => (hround hp hq ht).2

end Rounds

section NeverReturns

variable {M α β : Type}

/-- Whatever it receives, the process does not return. -/
def Script.NeverReturns : Script M α → Prop
  | done _ => False
  | error => True
  | fault => True
  | post _ next => ∀ ok, NeverReturns (next ok)
  | send _ _ next => ∀ ok, NeverReturns (next ok)
  | recv _ next => ∀ msg, NeverReturns (next msg)

theorem Script.NeverReturns.bind_left {s : Script M α} (h : NeverReturns s)
    (f : α → Script M β) : NeverReturns (s >>= f) := by
  change NeverReturns (s.bind f)
  induction s with
  | done a => exact h.elim
  | error => trivial
  | fault => trivial
  | post src next ih | send dst msg next ih => exact fun ok => ih ok (h ok)
  | recv src next ih => exact fun msg => ih msg (h msg)

theorem Script.neverReturns_bind (s : Script M α) {f : α → Script M β}
    (h : ∀ a, NeverReturns (f a)) : NeverReturns (s >>= f) := by
  change NeverReturns (s.bind f)
  induction s with
  | done a => exact h a
  | error => trivial
  | fault => trivial
  | post src next ih | send dst msg next ih => exact fun ok => ih ok
  | recv src next ih => exact fun msg => ih msg

theorem Script.NeverReturns.ite {c : Prop} [Decidable c] {s s' : Script M α} (h : NeverReturns s)
    (h' : NeverReturns s') : NeverReturns (if c then s else s') := by
  split_ifs
  · exact h
  · exact h'

theorem Script.neverReturns_foldlM {σ : Type} {body : σ → ℕ → Script M σ} {l : List ℕ} {i : ℕ}
    (hi : i ∈ l) (h : ∀ st, NeverReturns (body st i)) (st : σ) :
    NeverReturns (l.foldlM body st) := by
  induction l generalizing st with
  | nil => exact nomatch hi
  | cons j l ih =>
    rw [foldlM_cons]
    rcases mem_cons.1 hi with rfl | hi
    · exact (h st).bind_left _
    · exact neverReturns_bind _ fun st => ih hi st

theorem Net.Step.neverReturns {n p q : ℕ} {ok : Bool} {c c' : Net M α}
    (hstep : Net.Step n c q ok c') (h : NeverReturns (c.proc p)) : NeverReturns (c'.proc p) := by
  have hcase : ∀ s, (p = q → NeverReturns s) → NeverReturns (update c.proc q s p) := by
    intro s hs
    by_cases hpq : p = q
    · rw [hpq, update_self]
      exact hs hpq
    · rwa [update_of_ne hpq]
  cases hstep with
  | post _ hs | postError _ hs | send _ hs | sendError _ hs | recv _ hs _ | recvError _ hs =>
    refine hcase _ fun hpq => ?_
    rw [hpq, hs] at h
    exact h _

theorem not_computes_of_neverReturns {n p : ℕ} {prog : ℕ → Script M α} {out : ℕ → α}
    (hp : p < n) (hnever : NeverReturns (prog p)) : ¬Computes n prog out := by
  intro h
  obtain ⟨N, hN⟩ := h.bounded
  have hrun : ∀ k, ∃ c, Net.Run n (Net.init prog) k c ∧ NeverReturns (c.proc p) := by
    intro k
    induction k with
    | zero => exact ⟨_, .refl _, hnever⟩
    | succ k ih =>
      obtain ⟨c, hc, hcp⟩ := ih
      rcases h.progress hc with hdone | ⟨q, c', hstep, -⟩
      · rw [hdone p hp] at hcp
        exact hcp.elim
      · exact ⟨c', .tail hc hstep, hstep.neverReturns hcp⟩
  obtain ⟨c, hc, -⟩ := hrun (N + 1)
  exact absurd (hN hc) (Nat.not_succ_le_self N)

end NeverReturns

end Ulfm

import Mathlib.Tactic

/-!
# Native continuations

A native calls a closure through a frame that returns to its own instruction and leaves a
continuation, resumed before the next instruction once the frame is gone. Closures call natives
too, and exceptions discard frames. The innermost come first.
-/
namespace Beamr.Interpreter

variable {P K : Type}

/-- A frame, with the continuation of the native that has pushed it for a closure. -/
structure CallFrame (P K : Type) where
  returnPoint : P
  closureOf : Option K

structure PendingNativeContinuation (P K : Type) where
  continuation : K
  resumeDepth : ℕ
  resumePosition : P

/-- The continuations that the frames of closures belong to. -/
def framed : List (CallFrame P K) → List (PendingNativeContinuation P K)
  | [] => []
  | frame :: rest =>
    (frame.closureOf.map fun k => ⟨k, rest.length, frame.returnPoint⟩).toList ++ framed rest

theorem resumeDepth_lt {stack : List (CallFrame P K)} {p : PendingNativeContinuation P K}
    (h : p ∈ framed stack) : p.resumeDepth < stack.length := by
  induction stack with
  | nil => cases h
  | cons frame rest ih =>
    rcases List.mem_append.mp h with hown | hrest
    · obtain ⟨k, -, rfl⟩ := by simpa using hown
      exact Nat.lt_succ_self _
    · exact (ih hrest).trans (Nat.lt_succ_self _)

theorem framed_drop (stack : List (CallFrame P K)) (depth : ℕ) :
    framed (stack.drop (stack.length - depth)) =
      (framed stack).filter (·.resumeDepth < depth) := by
  induction stack with
  | nil => simp [framed]
  | cons frame rest ih =>
    by_cases hdepth : rest.length < depth
    · rw [List.length_cons, Nat.sub_eq_zero_of_le hdepth, List.drop_zero, eq_comm,
        List.filter_eq_self]
      exact fun p hp => decide_eq_true ((resumeDepth_lt hp).trans_le hdepth)
    · rw [List.length_cons, Nat.succ_sub (by omega), List.drop_succ_cons, ih, framed,
        List.filter_append]
      cases frame.closureOf <;> simp [hdepth]

/-- With the continuations whose closures have returned, and those that were resumed. -/
structure NativeCalls (P K : Type) where
  stack : List (CallFrame P K)
  codePosition : P
  pending : List (PendingNativeContinuation P K)
  returned : List K
  resumed : List K

inductive CallStep (P K : Type)
  | goto (position : P)
  | pushFrame (returnPoint position : P)
  /-- Only what code has allocated itself. -/
  | deallocate
  | return
  | trampoline (continuation : K) (closure : P)
  /-- The resumed native calls a closure again or goes on. -/
  | resume (again : Option K) (position : P)
  /-- To a handler with its depth. -/
  | raise (depth : ℕ) (handler : P)

namespace NativeCalls

variable [DecidableEq P] (s : NativeCalls P K)

def nativeContinuationReady : Bool :=
  s.pending.head?.any fun p => s.stack.length ≤ p.resumeDepth ∧ p.resumePosition = s.codePosition

def handleTrampoline (continuation : K) (closure : P) : NativeCalls P K :=
  { s with
    stack := ⟨s.codePosition, some continuation⟩ :: s.stack
    pending := ⟨continuation, s.stack.length, s.codePosition⟩ :: s.pending
    codePosition := closure }

def handleNativeContinuation (again : Option K) (position : P) : NativeCalls P K :=
  match s.pending with
  | [] => s
  | p :: rest =>
    let taken := { s with pending := rest, resumed := s.resumed ++ [p.continuation] }
    match again with
    | some continuation => taken.handleTrampoline continuation position
    | none => { taken with codePosition := position }

def dispatch : CallStep P K → NativeCalls P K
  | .goto position => { s with codePosition := position }
  | .pushFrame returnPoint position =>
    { s with stack := ⟨returnPoint, none⟩ :: s.stack, codePosition := position }
  | .deallocate =>
    match s.stack with
    | ⟨_, none⟩ :: rest => { s with stack := rest }
    | _ => s
  | .return =>
    match s.stack with
    | [] => s
    | frame :: rest => { s with
        stack := rest
        codePosition := frame.returnPoint
        returned := s.returned ++ frame.closureOf.toList }
  | .trampoline continuation closure => s.handleTrampoline continuation closure
  | .resume _ _ => s
  | .raise depth handler => { s with
      stack := s.stack.drop (s.stack.length - depth)
      pending := s.pending.filter (·.resumeDepth < depth)
      codePosition := handler }

def step (a : CallStep P K) : NativeCalls P K :=
  if s.nativeContinuationReady then
    match a with
    | .resume again position => s.handleNativeContinuation again position
    | _ => s
  else s.dispatch a

/-- No continuation is left without its frame. It was resumed if its closure has returned, or is
what comes next, and never otherwise. -/
def Bracketed : Prop :=
  s.pending = framed s.stack ∧ s.resumed = s.returned ∨
    ∃ k, s.pending = ⟨k, s.stack.length, s.codePosition⟩ :: framed s.stack ∧
      s.returned = s.resumed ++ [k]

variable {s}

theorem not_ready (h : s.pending = framed s.stack) : s.nativeContinuationReady = false := by
  rw [nativeContinuationReady]
  cases hp : s.pending with
  | nil => rfl
  | cons p rest =>
    have : p.resumeDepth < s.stack.length := resumeDepth_lt (by rw [← h, hp]; simp)
    simp [show ¬ s.stack.length ≤ p.resumeDepth by omega]

theorem Bracketed.step (h : s.Bracketed) (a : CallStep P K) : (s.step a).Bracketed := by
  rcases h with ⟨hpending, hresumed⟩ | ⟨k, hpending, hreturned⟩
  · unfold NativeCalls.step
    rw [not_ready hpending, if_neg Bool.false_ne_true]
    cases a with
    | goto | resume | pushFrame => exact .inl ⟨hpending, hresumed⟩
    | trampoline => exact .inl ⟨congrArg _ hpending, hresumed⟩
    | raise depth handler =>
      exact .inl ⟨(congrArg _ hpending).trans (framed_drop _ depth).symm, hresumed⟩
    | deallocate =>
      rw [dispatch]
      split
      next hstack => exact .inl ⟨by simpa [hstack, framed] using hpending, hresumed⟩
      next => exact .inl ⟨hpending, hresumed⟩
    | «return» =>
      simp only [dispatch]
      cases hstack : s.stack with
      | nil => exact .inl ⟨hpending, hresumed⟩
      | cons frame rest =>
        rw [hstack, framed] at hpending
        cases hframe : frame.closureOf with
        | none => exact .inl ⟨by simpa [hframe] using hpending, by simpa [hframe] using hresumed⟩
        | some k => exact .inr ⟨k, by simpa [hframe] using hpending, by simp [hframe, hresumed]⟩
  · have hready : s.nativeContinuationReady = true := by
      simp [nativeContinuationReady, hpending]
    unfold NativeCalls.step
    rw [if_pos hready]
    cases a with
    | resume again position =>
      simp only [handleNativeContinuation, hpending]
      cases again <;> exact .inl ⟨rfl, hreturned.symm⟩
    | _ => exact .inr ⟨k, hpending, hreturned⟩

/-- However calls nest and exceptions cut them short, continuations are resumed in the order in
which their own closures return. -/
theorem continuations_bracketed (start : P) (steps : List (CallStep P K)) :
    (steps.foldl step (⟨[], start, [], [], []⟩ : NativeCalls P K)).Bracketed :=
  List.foldlRecOn steps step (.inl ⟨rfl, rfl⟩) fun _ h a _ => h.step a

end NativeCalls

end Beamr.Interpreter

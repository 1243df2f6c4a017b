import Mathlib.Logic.Function.Basic
import Mathlib.Data.List.Perm.Basic

/-!
# Sweeping the maps of a dead owner

The entries an owner has in several maps while it is alive, the party that sweeps the maps when it
dies, and the parties that look once more after an insertion. A thread watches a map when it will
still remove the entry of a dead owner. Entries are safe as long as they are watched.
-/
namespace Sweep

variable {Map Thread : Type*} {watches : Thread → Map → Prop} {live : Bool} {entry : Map → Bool}
  {thread : Thread} {threads threads' : List Thread} {map : Map}

/-- The owner is alive, so that its death will sweep the map, or a thread watches the map. -/
def Watched (watches : Thread → Map → Prop) (live : Bool) (threads : List Thread) (map : Map) :
    Prop :=
  live = true ∨ ∃ thread ∈ threads, watches thread map

/-- Every entry is watched. -/
def Covered (watches : Thread → Map → Prop) (live : Bool) (entry : Map → Bool)
    (threads : List Thread) : Prop :=
  ∀ map, entry map = true → Watched watches live threads map

theorem watched_cons :
    Watched watches live (thread :: threads) map ↔
      watches thread map ∨ Watched watches live threads map := by
  simp only [Watched, List.exists_mem_cons_iff]
  exact or_left_comm

theorem watched_cons_of_not (hidle : ¬ watches thread map) :
    Watched watches live (thread :: threads) map ↔ Watched watches live threads map := by
  rw [watched_cons, or_iff_right hidle]

theorem watched_perm (hperm : threads.Perm threads') :
    Watched watches live threads map ↔ Watched watches live threads' map := by
  simp only [Watched, hperm.mem_iff]

theorem covered_perm (hperm : threads.Perm threads') :
    Covered watches live entry threads ↔ Covered watches live entry threads' :=
  forall_congr' fun _ => imp_congr_right fun _ => watched_perm hperm

theorem covered_cons_of_not (hidle : ∀ map, ¬ watches thread map) :
    Covered watches live entry (thread :: threads) ↔ Covered watches live entry threads :=
  forall_congr' fun map => imp_congr_right fun _ => watched_cons_of_not (hidle map)

theorem Covered.cons (h : Covered watches live entry threads) (thread : Thread) :
    Covered watches live entry (thread :: threads) :=
  fun map hentry => watched_cons.mpr (.inr (h map hentry))

/-- What an insertion needs: someone who still looks at the map. -/
theorem covered_insert [DecidableEq Map] :
    Covered watches live (Function.update entry map true) threads ↔
      Covered watches live entry threads ∧ Watched watches live threads map := by
  constructor
  · intro h
    have hmap : Watched watches live threads map := h map (Function.update_self ..)
    refine ⟨fun other hother => ?_, hmap⟩
    by_cases heq : other = map
    · exact heq ▸ hmap
    · exact h other (by rwa [Function.update_of_ne heq])
  · rintro ⟨h, hmap⟩ other hother
    by_cases heq : other = map
    · exact heq ▸ hmap
    · exact h other (by rwa [Function.update_of_ne heq] at hother)

/-- A removal, after which the thread that removes has the removed maps no longer to watch. -/
theorem Covered.remove {entry' : Map → Bool} {thread' : Thread}
    (h : Covered watches live entry (thread :: threads))
    (hsub : ∀ map, entry' map = true → entry map = true)
    (hkeep : ∀ map, entry' map = true → watches thread map → watches thread' map) :
    Covered watches live entry' (thread' :: threads) := by
  intro map hentry
  have hwatched := h map (hsub map hentry)
  rw [watched_cons] at hwatched ⊢
  exact hwatched.imp_left (hkeep map hentry)

theorem Covered.subset {entry' : Map → Bool} (h : Covered watches live entry threads)
    (hsub : ∀ map, entry' map = true → entry map = true) :
    Covered watches live entry' threads :=
  fun map hentry => h map (hsub map hentry)

/-- The owner dies, and the thread that is to sweep watches every map. -/
theorem covered_of_sweeper (hall : ∀ map, watches thread map) :
    Covered watches live entry (thread :: threads) :=
  fun map _ => watched_cons.mpr (.inl (hall map))

/-- Without threads a dead owner has no entry. -/
theorem Covered.empty (h : Covered watches false entry []) (map : Map) : entry map = false := by
  cases hentry : entry map with
  | false => rfl
  | true =>
    rcases h map hentry with hlive | ⟨thread, hmem, _⟩
    · cases hlive
    · cases hmem

end Sweep

import Mathlib.Tactic

/-!
# The atom table

Atom names are UTF-8 byte strings, interned once and numbered in order of first
interning. `lookup` never changes the table, `intern` returns the existing index
of a known name and appends a new one otherwise. No two indices carry the same
name, so looking up the name of an interned atom gives the atom back.
-/
namespace Beamr

/-- An index into the atom table. -/
abbrev Atom := ℕ

/-- Continuation byte of a multi-byte UTF-8 sequence. -/
def utf8Cont (b : UInt8) : Bool := 0x80 ≤ b && b ≤ 0xBF

/-- Shortest-form UTF-8 without surrogates and at most U+10FFFF, as `str::from_utf8` checks. -/
def utf8Valid : List UInt8 → Bool
  | [] => true
  | b :: rest =>
    if b ≤ 0x7F then utf8Valid rest
    else match rest with
      | c :: rest =>
        if 0xC2 ≤ b && b ≤ 0xDF then utf8Cont c && utf8Valid rest
        else match rest with
          | d :: rest =>
            if b = 0xE0 then 0xA0 ≤ c && c ≤ 0xBF && utf8Cont d && utf8Valid rest
            else if b = 0xED then 0x80 ≤ c && c ≤ 0x9F && utf8Cont d && utf8Valid rest
            else if 0xE1 ≤ b && b ≤ 0xEF then utf8Cont c && utf8Cont d && utf8Valid rest
            else match rest with
              | e :: rest =>
                if b = 0xF0 then
                  0x90 ≤ c && c ≤ 0xBF && utf8Cont d && utf8Cont e && utf8Valid rest
                else if 0xF1 ≤ b && b ≤ 0xF3 then
                  utf8Cont c && utf8Cont d && utf8Cont e && utf8Valid rest
                else if b = 0xF4 then
                  0x80 ≤ c && c ≤ 0x8F && utf8Cont d && utf8Cont e && utf8Valid rest
                else false
              | [] => false
          | [] => false
      | [] => false

/-- Interned names, by index. -/
structure AtomTable where
  names : List (List UInt8)
  nodup : names.Nodup
  valid : ∀ name ∈ names, utf8Valid name = true

namespace AtomTable

def lookup (t : AtomTable) (name : List UInt8) : Option Atom := t.names.idxOf? name

def resolve (t : AtomTable) (a : Atom) : Option (List UInt8) := t.names[a]?

/-- Index of `name`, appending it when it is new. -/
def intern (t : AtomTable) (name : List UInt8) (h : utf8Valid name = true) : Atom × AtomTable :=
  match ht : t.lookup name with
  | some a => (a, t)
  | none => (t.names.length, {
      names := t.names ++ [name]
      nodup := by
        have hnot : name ∉ t.names := List.idxOf?_eq_none_iff.mp ht
        rw [List.nodup_append]
        exact ⟨t.nodup, by simp, by rintro a ha b hb rfl; simp at hb; exact hnot (hb ▸ ha)⟩
      valid := by
        intro n hn
        rcases List.mem_append.mp hn with hn | hn
        · exact t.valid n hn
        · rw [List.mem_singleton.mp hn]; exact h })

/-- `u` knows every name of `t` at the same index. -/
def Extends (u t : AtomTable) : Prop := ∃ more, u.names = t.names ++ more

theorem Extends.refl (t : AtomTable) : Extends t t := ⟨[], by simp⟩

theorem Extends.trans {t u v : AtomTable} (h : Extends v u) (h' : Extends u t) : Extends v t := by
  obtain ⟨m, hm⟩ := h
  obtain ⟨n, hn⟩ := h'
  exact ⟨n ++ m, by rw [hm, hn, List.append_assoc]⟩

theorem Extends.resolve {t u : AtomTable} (h : Extends u t) {a : Atom} {name : List UInt8}
    (ha : t.resolve a = some name) : u.resolve a = some name := by
  obtain ⟨more, hm⟩ := h
  unfold AtomTable.resolve at ha ⊢
  rw [hm, List.getElem?_append_left (List.getElem?_eq_some_iff.mp ha).1]
  exact ha

theorem intern_extends (t : AtomTable) (name : List UInt8) (h : utf8Valid name = true) :
    Extends (t.intern name h).2 t := by
  unfold intern
  split
  · exact Extends.refl t
  · exact ⟨[name], rfl⟩

theorem lookup_of_resolve {t : AtomTable} {a : Atom} {name : List UInt8}
    (h : t.resolve a = some name) : t.lookup name = some a := by
  obtain ⟨ha, hname⟩ := List.getElem?_eq_some_iff.mp h
  refine List.idxOf?_eq_some_iff.mpr ⟨ha, hname, ?_⟩
  intro j hj he
  have hja : j = a := (t.nodup.getElem_inj_iff).mp (he.trans hname.symm)
  omega

theorem resolve_of_lookup {t : AtomTable} {a : Atom} {name : List UInt8}
    (h : t.lookup name = some a) : t.resolve a = some name := by
  obtain ⟨ha, hname, -⟩ := List.idxOf?_eq_some_iff.mp h
  exact List.getElem?_eq_some_iff.mpr ⟨ha, hname⟩

theorem resolve_intern (t : AtomTable) (name : List UInt8) (h : utf8Valid name = true) :
    (t.intern name h).2.resolve (t.intern name h).1 = some name := by
  unfold intern
  split
  · next a ha => exact resolve_of_lookup ha
  · simp [resolve]

theorem valid_of_resolve {t : AtomTable} {a : Atom} {name : List UInt8}
    (h : t.resolve a = some name) : utf8Valid name = true :=
  t.valid name (List.mem_of_getElem? h)

/-- Bytes of an ASCII name. -/
def ascii (s : String) : List UInt8 := s.toList.map fun c => UInt8.ofNat c.toNat

/-- Names of the `Atom::*` constants, in index order. -/
def commonAtomNames : List (List UInt8) :=
  ["ok", "error", "true", "false", "nil", "undefined", "normal", "kill", "EXIT", "badarg",
   "badarith", "badmatch", "function_clause", "case_clause", "if_clause", "undef", "badfun",
   "badarity", "noproc", "timeout", "killed", "DOWN", "process", "trap_exit", "badkey", "flush",
   "info", "utf8", "latin1", "module", "throw", "exit", "line", "enoent", "eacces", "eexist",
   "eisdir", "enotdir", "enospc", "emfile", "enfile", "ebadf", "epipe", "eagain", "einval",
   "enotempty", "exdev", "eloop", "erofs", "enametoolong", "eperm", "unknown_error", "closed",
   "incomplete", "read", "write", "append", "create", "truncate", "bof", "cur", "eof",
   "econnrefused", "econnreset", "einprogress", "enotconn", "noconnection", "capability_denied",
   "ensure_at_least", "ensure_exactly", "integer", "float", "binary", "skip", "get_tail", "=:=",
   "infinity", "worker_crashed"].map ascii

/-- The only constructor of the source: the common atoms at their fixed indices. -/
def withCommonAtoms : AtomTable where
  names := commonAtomNames
  nodup := by decide +kernel
  valid := by decide +kernel

end AtomTable

end Beamr

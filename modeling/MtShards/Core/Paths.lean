import MtShards.Core.Text

/-!
# Paths

A path is followed from a folder, part by part. A folder is the list of the names on the way to it
from the root; there are no links. Joining paths is following the one and then the other, and a
plain file name leads nowhere but into the folder.
-/

namespace MtShards.Core.Path

/-- One part of a path, followed from a folder. -/
def follow (folder : List Text) (part : Text) : List Text :=
  if part = [] ∨ part = ['.'] then folder
  else if part = ['.', '.'] then folder.dropLast
  else folder ++ [part]

/-- Where a path leads to from a folder. -/
def resolve (folder : List Text) (path : Text) : List Text :=
  (path.splitOn '/').foldl follow (if path.head? = some '/' then [] else folder)

/-- A path joined to another; an absolute one stands for itself. -/
def join (root path : Text) : Text :=
  if path.head? = some '/' then path
  else if root = [] ∨ root.getLast? = some '/' then root ++ path
  else root ++ '/' :: path

/-- The name of a file, as it stands in its folder. -/
structure IsFileName (name : Text) : Prop where
  ne_nil : name ≠ []
  ne_dot : name ≠ ['.']
  ne_dots : name ≠ ['.', '.']
  slash_not_mem : '/' ∉ name

variable {folder : List Text} {root path name : Text}

/-- A name of more than two characters is neither `.` nor `..`. -/
theorem isFileName_of_length (h : 2 < name.length) (hslash : '/' ∉ name) : IsFileName name where
  ne_nil hname := by simp [hname] at h
  ne_dot hname := by simp [hname] at h
  ne_dots hname := by simp [hname] at h
  slash_not_mem := hslash

/-- Two parts of a path are followed one after the other. -/
theorem resolve_append_cons (front back : Text) (h : back.head? ≠ some '/') :
    resolve folder (front ++ '/' :: back) = resolve (resolve folder (front ++ ['/'])) back := by
  have hhead : (front ++ '/' :: back).head? = (front ++ ['/']).head? := by
    cases front with
    | nil => rfl
    | cons c cs => rfl
  have hsplit : (front ++ ['/']).splitOn '/' = front.splitOn '/' ++ [[]] := by
    rw [List.splitOn_append_cons_self, List.splitOn_nil]
  rw [resolve, resolve, resolve, hhead, if_neg h, List.splitOn_append_cons_self,
    List.foldl_append, hsplit, List.foldl_append]
  rfl

/-- A separator at the end changes nothing. -/
theorem resolve_concat_slash (hroot : root ≠ []) :
    resolve folder (root ++ ['/']) = resolve folder root := by
  have hhead : (root ++ ['/']).head? = root.head? := by
    cases root with
    | nil => exact absurd rfl hroot
    | cons c cs => rfl
  rw [resolve, resolve, hhead, List.splitOn_append_cons_self, List.splitOn_nil,
    List.foldl_append]
  rfl

/-- Joining paths is following the one and then the other. -/
theorem resolve_join : resolve folder (join root path) = resolve (resolve folder root) path := by
  rw [join]
  split
  · rename_i habsolute
    rw [resolve, resolve, if_pos habsolute, if_pos habsolute]
  · rename_i hrelative
    split
    · rename_i hclosed
      rcases List.eq_nil_or_concat' root with rfl | ⟨front, last, rfl⟩
      · rfl
      · have hlast : last = '/' := by simpa using hclosed
        rw [hlast, List.append_assoc, List.singleton_append, resolve_append_cons _ _ hrelative]
    · rename_i hopen
      rw [resolve_append_cons _ _ hrelative, resolve_concat_slash fun hnil => hopen (.inl hnil)]

/-- A plain file name leads to the file of that name in the folder. -/
theorem IsFileName.resolve (h : IsFileName name) : Path.resolve folder name = folder ++ [name] := by
  have hhead : name.head? ≠ some '/' := fun hslash =>
    h.slash_not_mem (List.mem_of_mem_head? hslash)
  rw [Path.resolve, if_neg hhead, List.splitOn_eq_singleton h.slash_not_mem, List.foldl_cons,
    List.foldl_nil, follow, if_neg (not_or.mpr ⟨h.ne_nil, h.ne_dot⟩), if_neg h.ne_dots]

/-- Two steps up, and back down. -/
example : resolve ["srv".toList, "logs".toList] "../etc/./x".toList =
    ["srv".toList, "etc".toList, "x".toList] := by
  decide

end MtShards.Core.Path

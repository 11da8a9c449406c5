import CommandFrame.Proofs.Glob.Hidden
import CommandFrame.Proofs.Path.Product

/-!
# Hidden entries

A pattern that does not begin with a dot, and that names no entry itself, lists a hidden
entry of a directory exactly if it uncovers it: behind stars that stand for nothing the
pattern has a dot and matches the name.
-/

namespace CommandFrame

namespace DirectoryMatcher

variable {matcher : DirectoryMatcher} {tree : FileTree} {directory pattern name : Text}

theorem hidden_mem_namesIn_iff (hdot : pattern.head? ≠ some '.')
    (habsent : '/' ∈ pattern ∨ tree.isPresent (Path.join directory pattern) = false)
    (hname : name.head? = some '.') :
    name ∈ matcher.namesIn tree directory pattern ↔
      ∃ names, tree.list directory = .ok names ∧ name ∈ names ∧
        matcher.admits tree directory name = true ∧ Glob.Uncovers pattern name := by
  obtain ⟨found, rfl⟩ := List.head?_eq_some_iff.1 hname
  have hdots : ¬(pattern = "." ∨ pattern = "..") := by
    rintro (rfl | rfl) <;> exact absurd rfl hdot
  by_cases hne : pattern = []
  · subst hne
    constructor
    · exact fun hmem => absurd hmem List.not_mem_nil
    · rintro ⟨names, -, -, -, huncovers⟩
      exact absurd huncovers.head?_eq nofun
  · simp only [← Glob.accepts_dot_iff hdot]
    exact mem_namesIn_iff_of_absent hne hdots habsent

/-- No hidden name is listed exactly if the pattern uncovers none of those in the directory
that the rules leave, so never if no dot stands behind the stars that it begins with. -/
theorem hides_iff {matcher : DirectoryMatcher} {tree : FileTree} {directory pattern : Text}
    (hdot : pattern.head? ≠ some '.')
    (habsent : '/' ∈ pattern ∨ tree.isPresent (Path.join directory pattern) = false) :
    ((∀ name ∈ matcher.namesIn tree directory pattern, name.head? ≠ some '.') ↔
      ∀ names, tree.list directory = .ok names → ∀ name ∈ names, name.head? = some '.' →
        matcher.admits tree directory name = true → ¬Glob.Uncovers pattern name) ∧
    ((Glob.dropStars pattern).head? ≠ some '.' →
      ∀ name ∈ matcher.namesIn tree directory pattern, name.head? ≠ some '.') := by
  refine ⟨⟨?_, ?_⟩, ?_⟩
  · intro hhides names hlist name hmem hhidden hadmits huncovers
    exact hhides name ((hidden_mem_namesIn_iff hdot habsent hhidden).2
      ⟨names, hlist, hmem, hadmits, huncovers⟩) hhidden
  · intro hcovered name hmem hhidden
    obtain ⟨names, hlist, hname, hadmits, huncovers⟩ :=
      (hidden_mem_namesIn_iff hdot habsent hhidden).1 hmem
    exact hcovered names hlist name hname hhidden hadmits huncovers
  · intro hbehind name hmem hhidden
    obtain ⟨-, -, -, -, huncovers⟩ := (hidden_mem_namesIn_iff hdot habsent hhidden).1 hmem
    exact hbehind huncovers.head?_eq

end DirectoryMatcher

namespace HiddenExample

def tree : FileTree := ⟨[([".hidden"], .file [] false), (["a.png"], .file [] false)]⟩

theorem list_tree : tree.list "/" = .ok [(".hidden" : Text), "a.png"] := by cbv

end HiddenExample

theorem DirectoryMatcher.hides_iff_png :
    (Glob.dropStars "*.png").head? = some '.' ∧
      ∀ name ∈ DirectoryMatcher.namesIn {} HiddenExample.tree "/" "*.png",
        name.head? ≠ some '.' := by
  have habsent : HiddenExample.tree.isPresent (Path.join "/" "*.png") = false := by cbv
  obtain ⟨hhides, -⟩ :=
    @DirectoryMatcher.hides_iff {} HiddenExample.tree "/" "*.png" (by decide) (.inr habsent)
  refine ⟨by decide, hhides.2 fun names hlist name hname hhidden _ huncovers => ?_⟩
  obtain rfl := Except.ok.inj (HiddenExample.list_tree.symm.trans hlist)
  rcases List.mem_pair.1 hname with rfl | rfl
  · exact absurd huncovers.accepts_eq (by decide +kernel)
  · exact absurd hhidden (by decide)

/-- A star stands for nothing, and the dot that is written behind it for the one that hides. -/
theorem DirectoryMatcher.not_always_hides :
    ("*.*" : Text).head? ≠ some '.' ∧
      HiddenExample.tree.isPresent (Path.join "/" "*.*") = false ∧
      DirectoryMatcher.namesIn {} HiddenExample.tree "/" "*.*" = [(".hidden" : Text), "a.png"] := by
  refine ⟨by decide, ?_, ?_⟩ <;> cbv

end CommandFrame

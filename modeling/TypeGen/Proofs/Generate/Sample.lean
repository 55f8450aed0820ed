import TypeGen.Project.Generate
import TypeGen.Proofs.Layout.Naming
import TypeGen.Proofs.Store.Visiting

/-!
A small project to try general statements on, on disks that are furnished for it.
-/

namespace TypeGen.Project

open TypeGen.Spec TypeGen.Store

/-- A disk with some directories and files. -/
def furnish (directories : List String) (files : List (String × String)) : Disk :=
  let d := directories.foldl (fun d p => (d.makeDirectories (FilePath.ofString p)).1) Disk.empty
  files.foldl (fun d f => (save d (FilePath.ofString f.1) f.2).1) d

/-- What holds of an empty disk and is kept by what is added holds of a furnished one. -/
theorem furnish_induction {P : Disk → Prop} {directories : List String}
    {files : List (String × String)} (hempty : P Disk.empty)
    (hdirectory : ∀ d s, P d → P (d.makeDirectories (FilePath.ofString s)).1)
    (hfile : ∀ d, ∀ f ∈ files, P d → P (save d (FilePath.ofString f.1) f.2).1) :
    P (furnish directories files) := by
  refine List.foldlRecOn files _ ?_ fun d hd f hf => hfile d f hf hd
  exact List.foldlRecOn directories _ hempty fun d hd s _ => hdirectory d s hd

theorem noLinks_furnish (directories : List String) (files : List (String × String)) :
    (furnish directories files).tree.NoLinks :=
  furnish_induction (P := fun d => d.tree.NoLinks) (by decide)
    (fun d _ hl => (d.onlyAdds_makeDirectories _).noLinks hl) fun _ _ _ hl => noLinks_save hl rfl

theorem hasPlainNames_furnish (directories : List String) (files : List (String × String)) :
    (furnish directories files).tree.HasPlainNames := by
  have hnames : ∀ s name, .name name ∈ (FilePath.ofString s).components → FilePath.IsPlain name :=
    fun s _ => (FilePath.isWritten_ofString s).isPlain
  refine (furnish_induction (P := fun d => d.tree.NoLinks ∧ d.tree.HasPlainNames) (by decide)
    (fun d s hd => ⟨?_, ?_⟩) fun d f _ hd => ⟨?_, ?_⟩).2
  · exact (d.onlyAdds_makeDirectories _).noLinks hd.1
  · exact hasPlainNames_makeDirectories hd.1 hd.2 (hnames s)
  · exact noLinks_save hd.1 rfl
  · exact hasPlainNames_save hd.1 hd.2 rfl (hnames f.1)

/-- A spec of a struct without fields. -/
def emptyStruct : String := "name = \"A\"\nfeatures = []\nfields = []\n"

/-- A spec of an enum with one value. -/
def smallEnum : String := "name = \"A\"\nfeatures = []\n[[values]]\nname = \"X\"\n"

/-- A generator for a project in `r` that sets nothing but its name. -/
def sampleGenerator : Generator := ⟨⟨FilePath.ofString "r", Config.ofName "p"⟩, none, false⟩

theorem parseConfig_sample :
    parseConfig "project_name = \"p\"\n" "r/.proj.toml" = .ok sampleGenerator.layout.config := by
  decide +kernel

theorem isFlat_sample : sampleGenerator.layout.IsFlat := by rw [Layout.IsFlat]; decide

/-! ### Two specs of one stem -/

def ofStruct : FilePath := FilePath.ofString "r/foo.struct.toml"

def ofEnum : FilePath := FilePath.ofString "r/foo.enum.toml"

/-- What is generated for either of them. -/
def ofBoth (spec : FilePath) : Generated :=
  ⟨spec, FilePath.ofString "r/foo.dtg.h", FilePath.ofString "r/foo.dtg.cc"⟩

/-- What is told of a run on a fixed disk can be computed; the disk it leaves is only named. -/
theorem eq_mk_of_snd {α β : Type} {x : α × β} {b : β} (h : x.2 = b) : x = (x.1, b) := by rw [← h]

end TypeGen.Project

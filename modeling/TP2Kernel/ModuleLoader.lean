/-
TP2Kernel/ModuleLoader.lean

The image with the kernel and its modules: `buildImage`, `write_size` and `write_file`
of `Toolchain/ModulePacker/main.c` write it, `loadModules`, `loadModule` and
`readUint32` of `Kernel/moduleLoader.c` read it.

The two programs share no code.  They agree on the layout behind the kernel: the
number of modules, and for each module its size and its bytes, numbers in four bytes
with the lowest first.  The loader's memory keeps a note of every region it reads, so
that one can say how far it reads.
-/
import TP2Kernel.Memcpy

namespace TP2Kernel

/-! ### Writing the image -/

/-- `BUFFER_SIZE`. -/
def packBufferSize : Nat := 128

/-- A file open for reading: what is left of it, and its end-of-file indicator. -/
structure Source where
  rest : List UInt8
  eof : Bool

/-- `fread(buffer, 1, BUFFER_SIZE, source)`: a short count sets the indicator. -/
def Source.fread (f : Source) : List UInt8 × Source :=
  (f.rest.take packBufferSize,
    ⟨f.rest.drop packBufferSize, decide (f.rest.length < packBufferSize)⟩)

/-- `write_file`, for at most `rounds` rounds: what the target has then. -/
def writeFile : Nat → List UInt8 → Source → Option (List UInt8)
  | 0, _, _ => none
  | rounds + 1, target, f =>
      if f.eof then some target else writeFile rounds (target ++ f.fread.1) f.fread.2

/-- The four bytes of a number. -/
def le32 (n : Nat) : List UInt8 :=
  [ByteMem.intByte n 0, ByteMem.intByte n 1, ByteMem.intByte n 2, ByteMem.intByte n 3]

/-- The loop of `buildImage` over the modules; `write_size` comes before each file. -/
def packLoop (rounds : Nat) : List UInt8 → List (List UInt8) → Option (List UInt8)
  | target, [] => some target
  | target, file :: files =>
      (writeFile rounds (target ++ le32 file.length) ⟨file, false⟩).bind fun target =>
        packLoop rounds target files

/-- `buildImage`: the contents of the output file. -/
def buildImage (rounds : Nat) (kernel : List UInt8) (modules : List (List UInt8)) :
    Option (List UInt8) :=
  (writeFile rounds [] ⟨kernel, false⟩).bind fun target =>
    packLoop rounds (target ++ le32 modules.length) modules

/-! ### Reading the image -/

/-- Memory, and the regions that have been read: address and length. -/
structure Loader where
  mem : ByteMem
  reads : List (Int × Nat)

namespace Loader

/-- `readUint32`: the number, and the address behind it. -/
def readUint32 (l : Loader) (address : Int) : Nat × Int × Loader :=
  (l.mem.readNat address, address + 4, { l with reads := l.reads ++ [(address, 4)] })

/-- `loadModule`: the address behind the module. -/
def loadModule (l : Loader) (module target : Int) : Int × Loader :=
  let (moduleSize, module, l) := l.readUint32 module
  (module + moduleSize, ⟨l.mem.memcpy target module moduleSize, l.reads ++ [(module, moduleSize)]⟩)

/-- The loop of `loadModules`, for `n` more modules from the module `i` on. -/
def loadLoop (targets : Nat → Int) : Nat → Nat → Int → Loader → Loader
  | 0, _, _, l => l
  | n + 1, i, currentModule, l =>
      loadLoop targets n (i + 1) (l.loadModule currentModule (targets i)).1
        (l.loadModule currentModule (targets i)).2

/-- `loadModules`. -/
def loadModules (m : ByteMem) (payloadStart : Int) (targets : Nat → Int) : Loader :=
  let (moduleCount, currentModule, l) := readUint32 ⟨m, []⟩ payloadStart
  loadLoop targets moduleCount 0 currentModule l

end Loader

/-! ### The layout -/

/-- A module in the image. -/
def packed (file : List UInt8) : List UInt8 := le32 file.length ++ file

/-- What the image has behind the kernel. -/
def payload (modules : List (List UInt8)) : List UInt8 :=
  le32 modules.length ++ modules.flatMap packed

/-- **Pieces of 128 bytes**, the last of them short or empty, make up the file. -/
theorem writeFile_eq (rounds : Nat) (target rest : List UInt8)
    (h : rest.length / packBufferSize + 1 < rounds) :
    writeFile rounds target ⟨rest, false⟩ = some (target ++ rest) := by
  induction rounds generalizing target rest with
  | zero => exact absurd h (Nat.not_lt_zero _)
  | succ rounds ih =>
      rw [writeFile, if_neg Bool.false_ne_true]
      unfold Source.fread
      unfold packBufferSize at h ih ⊢
      dsimp only
      by_cases hshort : rest.length < 128
      · -- the short piece sets the indicator, and the next round ends the loop
        obtain ⟨n, rfl⟩ := Nat.exists_eq_succ_of_ne_zero (by omega : rounds ≠ 0)
        rw [writeFile, if_pos (by simpa using hshort), List.take_of_length_le hshort.le]
      · rw [decide_eq_false hshort, ih, List.append_assoc, List.take_append_drop]
        rw [List.length_drop]
        omega

theorem packLoop_eq {rounds : Nat} (target : List UInt8) {modules : List (List UInt8)}
    (h : ∀ f ∈ modules, f.length / packBufferSize + 1 < rounds) :
    packLoop rounds target modules = some (target ++ modules.flatMap packed) := by
  induction modules generalizing target with
  | nil =>
      rw [packLoop, List.flatMap_nil, List.append_nil]
  | cons file files ih =>
      rw [packLoop, writeFile_eq _ _ _ (h file List.mem_cons_self), Option.bind_some,
        ih _ fun f hf => h f (List.mem_cons_of_mem _ hf), List.flatMap_cons, packed]
      simp only [List.append_assoc]

/-- The image is the kernel and the payload. -/
theorem buildImage_eq {rounds : Nat} {kernel : List UInt8} {modules : List (List UInt8)}
    (h : ∀ f ∈ kernel :: modules, f.length / packBufferSize + 1 < rounds) :
    buildImage rounds kernel modules = some (kernel ++ payload modules) := by
  unfold buildImage payload
  rw [writeFile_eq _ _ _ (h kernel List.mem_cons_self), Option.bind_some,
    packLoop_eq _ fun f hf => h f (List.mem_cons_of_mem _ hf)]
  simp only [List.nil_append, List.append_assoc]

/-! ### Loading -/

/-- A number is read back. -/
theorem readNat_le32 {m : ByteMem} {a : Int} {n : Nat} (hn : n < 2 ^ 32)
    (hm : m.Holds a (le32 n)) : m.readNat a = n := by
  obtain ⟨h0, h1, h2, h3, -⟩ := hm
  have hsum := ByteMem.intByte_sum n
  rw [show a + 1 + 1 = a + 2 by omega] at h2 h3
  rw [show a + 2 + 1 = a + 3 by omega] at h3
  unfold ByteMem.readNat
  rw [h0, h1, h2, h3]
  omega

/-- A region read lies in the image from `lo` to `hi`. -/
def InRange (lo hi : Int) (r : Int × Nat) : Prop := lo ≤ r.1 ∧ r.1 + r.2 ≤ hi

/-- The module `file` goes to `target`, away from `[lo, hi)`. -/
def Clear (lo hi target : Int) (file : List UInt8) : Prop :=
  target + file.length ≤ lo ∨ hi ≤ target

/-- Outside the targets of the modules from number `i` on. -/
def OffTargets (targets : Nat → Int) (i : Nat) (files : List (List UInt8)) (x : Int) : Prop :=
  ∀ k f, files[k]? = some f → x < targets (i + k) ∨ targets (i + k) + f.length ≤ x

/-- What loading the modules from number `i` on does, when they are packed from `p` to
`hi`. -/
structure Loaded (targets : Nat → Int) (i : Nat) (files : List (List UInt8)) (p hi : Int)
    (l l' : Loader) : Prop where
  contents : ∀ k f, files[k]? = some f → l'.mem.Holds (targets (i + k)) f
  frame : ∀ x, OffTargets targets i files x → l'.mem x = l.mem x
  reads : ∃ rs, l'.reads = l.reads ++ rs ∧ ∀ r ∈ rs, InRange p hi r

theorem packed_length (file : List UInt8) : (packed file).length = 4 + file.length := by
  unfold packed
  rw [List.length_append]
  rfl

/-- The first module and then the rest, whose targets lie behind the first one's. -/
theorem Loaded.cons {targets : Nat → Int} {i : Nat} {file : List UInt8} {files : List (List UInt8)}
    {p hi : Int} {l l₁ l' : Loader} (hfile : l₁.mem.Holds (targets i) file)
    (hframe : ∀ x, x < targets i ∨ targets i + file.length ≤ x → l₁.mem x = l.mem x)
    (hreads : l₁.reads = l.reads ++ [(p, 4), (p + 4, file.length)])
    (hhi : p + (packed file).length ≤ hi)
    (happart : ∀ k, k < files.length → targets i + file.length ≤ targets (i + (k + 1)))
    (h : Loaded targets (i + 1) files (p + (packed file).length) hi l₁ l') :
    Loaded targets i (file :: files) p hi l l' := by
  have hplen := packed_length file
  obtain ⟨hcontents, hkept, rs, hrs, hin⟩ := h
  refine ⟨fun k f hk => ?_, fun x hx => ?_, (p, 4) :: (p + 4, file.length) :: rs, ?_, ?_⟩
  · cases k with
    | zero =>
        -- the later modules leave the first one alone
        cases hk
        show ByteMem.Holds _ (targets i) file
        refine (ByteMem.Holds.congr fun x hx hx' => hkept x fun k f hk => ?_).mpr hfile
        have hbehind := happart k (List.getElem?_eq_some_iff.mp hk).1
        rw [Nat.add_assoc, Nat.add_comm 1]
        exact .inl (by omega)
    | succ k =>
        rw [← Nat.add_comm 1, ← Nat.add_assoc]
        exact hcontents k f hk
  · refine (hkept x fun k f hk => ?_).trans (hframe x (hx 0 file rfl))
    rw [Nat.add_assoc, Nat.add_comm 1]
    exact hx (k + 1) f hk
  · rw [hrs, hreads, List.append_assoc]
    rfl
  · intro r hr
    rcases List.mem_cons.mp hr with rfl | hr
    · exact ⟨le_rfl, by dsimp only; omega⟩
    · rcases List.mem_cons.mp hr with rfl | hr
      · exact ⟨by dsimp only; omega, by dsimp only; omega⟩
      · obtain ⟨hlo, hhi⟩ := hin r hr
        exact ⟨by omega, by omega⟩

/-- One module. -/
theorem loadModule_spec {l : Loader} {p target : Int} {file : List UInt8}
    (hm : l.mem.Holds p (packed file)) (hsize : file.length < 2 ^ 32)
    (hclear : Clear p (p + (packed file).length) target file) :
    (l.loadModule p target).1 = p + (packed file).length ∧
      (l.loadModule p target).2.mem.Holds target file ∧
      (∀ x, x < target ∨ target + file.length ≤ x → (l.loadModule p target).2.mem x = l.mem x) ∧
      (l.loadModule p target).2.reads = l.reads ++ [(p, 4), (p + 4, file.length)] := by
  rw [packed_length] at hclear ⊢
  obtain ⟨hcount, hfile⟩ := ByteMem.holds_append.mp hm
  have hnat := readNat_le32 hsize hcount
  -- the copy must not overlap the module in the image
  have hapart : ByteMem.Apart target (p + 4) file.length := by
    rcases hclear with h | h
    · exact .inl (by omega)
    · exact .inr (by push_cast at h; omega)
  have hcopy := ByteMem.memcpy_copied (m := l.mem) hapart
  unfold Loader.loadModule Loader.readUint32
  dsimp only
  rw [hnat]
  refine ⟨by push_cast; omega, hcopy.holds hfile, fun x hx => hcopy.outside hx, ?_⟩
  rw [List.append_assoc]
  rfl

/-- **The run lemma of the loader.** -/
theorem loadLoop_loaded {targets : Nat → Int} {files : List (List UInt8)} {i : Nat} {p : Int}
    {l : Loader} (hm : l.mem.Holds p (files.flatMap packed))
    (hsize : ∀ f ∈ files, f.length < 2 ^ 32)
    (hclear : ∀ k f, files[k]? = some f →
      Clear p (p + (files.flatMap packed).length) (targets (i + k)) f)
    (happart : ∀ k k' f, files[k]? = some f → k < k' → k' < files.length →
      targets (i + k) + f.length ≤ targets (i + k')) :
    Loaded targets i files p (p + (files.flatMap packed).length) l
      (l.loadLoop targets files.length i p) := by
  induction files generalizing i p l with
  | nil =>
      refine ⟨?_, fun _ _ => rfl, [], (List.append_nil _).symm, fun r hr => ?_⟩
      · rintro k f ⟨⟩
      · exact absurd hr List.not_mem_nil
  | cons file files ih =>
      have hlen : ((file :: files).flatMap packed).length =
          (packed file).length + (files.flatMap packed).length := by
        rw [List.flatMap_cons, List.length_append]
      obtain ⟨hfirst, hrest⟩ := ByteMem.holds_append.mp hm
      have hclear0 := hclear 0 file rfl
      rw [Nat.add_zero] at hclear0
      rw [hlen] at hclear hclear0 ⊢
      push_cast at hclear hclear0 ⊢
      obtain ⟨hnext, hcontents, hframe, hreads⟩ := loadModule_spec hfirst
        (hsize file List.mem_cons_self) (hclear0.imp_right fun h => by omega)
      have hplen := packed_length file
      rw [List.length_cons, Loader.loadLoop, hnext]
      -- the rest of the image is away from the first target
      have hrest' : (l.loadModule p (targets i)).2.mem.Holds (p + (packed file).length)
          (files.flatMap packed) := by
        refine (ByteMem.Holds.congr fun x hx hx' => hframe x ?_).mpr hrest
        rcases hclear0 with h | h
        · exact .inr (by omega)
        · exact .inl (by omega)
      -- the modules are numbered from `i`, so the rest has the numbers from `i + 1` on
      have hloaded := ih (i := i + 1) hrest' (fun f hf => hsize f (List.mem_cons_of_mem _ hf))
        (fun k f hk => by
          rw [Nat.add_assoc, Nat.add_comm 1]
          exact (hclear (k + 1) f hk).imp (fun h => by omega) fun h => by omega)
        (fun k k' f hk hlt hlt' => by
          rw [Nat.add_assoc, Nat.add_comm 1, Nat.add_assoc, Nat.add_comm 1]
          exact happart (k + 1) (k' + 1) f hk (by omega) (Nat.succ_lt_succ hlt'))
      refine Loaded.cons hcontents hframe hreads (by omega) (fun k hk => ?_)
        (by rw [← Int.add_assoc]; exact hloaded)
      exact happart 0 (k + 1) file rfl (Nat.succ_pos k) (Nat.succ_lt_succ hk)

/-- **Packing and loading are inverse**: the loader, started behind the kernel in an
image that `buildImage` has written, leaves every module at its target and reads
nothing but the image. -/
theorem loadModules_buildImage {rounds : Nat} {kernel : List UInt8} {modules : List (List UInt8)}
    (hrounds : ∀ f ∈ kernel :: modules, f.length / packBufferSize + 1 < rounds)
    (hcount : modules.length < 2 ^ 31) (hsize : ∀ f ∈ modules, f.length < 2 ^ 32)
    {targets : Nat → Int} (hnext : ∀ i j f, modules[i]? = some f → i < j → j < modules.length →
      targets i + f.length ≤ targets j) :
    ∃ image, buildImage rounds kernel modules = some image ∧
      ∀ (m : ByteMem) (base : Int), m.Holds base image →
        (∀ i f, modules[i]? = some f →
          Clear (base + kernel.length) (base + image.length) (targets i) f) →
        (∀ i f, modules[i]? = some f →
          (Loader.loadModules m (base + kernel.length) targets).mem.Holds (targets i) f) ∧
        ∀ r ∈ (Loader.loadModules m (base + kernel.length) targets).reads,
          InRange (base + kernel.length) (base + image.length) r := by
  refine ⟨kernel ++ payload modules, buildImage_eq hrounds, fun m base hm hclear => ?_⟩
  have hlen : ((kernel ++ payload modules).length : Int) =
      kernel.length + (4 + (modules.flatMap packed).length) := by
    rw [List.length_append, payload, List.length_append]
    push_cast
    rfl
  rw [hlen] at hclear ⊢
  obtain ⟨-, hpayload⟩ := ByteMem.holds_append.mp hm
  obtain ⟨hcountBytes, hfiles⟩ := ByteMem.holds_append.mp hpayload
  have hnat : m.readNat (base + kernel.length) = modules.length :=
    readNat_le32 (by omega) hcountBytes
  have hstart : base + (kernel.length : Int) + (le32 modules.length).length =
      base + kernel.length + 4 := rfl
  rw [hstart] at hfiles
  have hloaded : Loaded targets 0 modules (base + kernel.length + 4)
      (base + kernel.length + 4 + (modules.flatMap packed).length)
      ⟨m, [(base + kernel.length, 4)]⟩
      (Loader.loadLoop targets modules.length 0 (base + kernel.length + 4)
        ⟨m, [(base + kernel.length, 4)]⟩) := by
    apply loadLoop_loaded hfiles hsize
    · intro k f hk
      rw [Nat.zero_add]
      exact (hclear k f hk).imp (fun h => by omega) fun h => by omega
    · intro k k' f hk hlt hlt'
      rw [Nat.zero_add, Nat.zero_add]
      exact hnext k k' f hk hlt hlt'
  obtain ⟨hcontents, -, rs, hrs, hin⟩ := hloaded
  unfold Loader.loadModules Loader.readUint32
  dsimp only
  rw [hnat]
  refine ⟨fun i f hi => ?_, fun r hr => ?_⟩
  · have h := hcontents i f hi
    rwa [Nat.zero_add] at h
  · rw [List.nil_append, hrs] at hr
    rcases List.mem_append.mp hr with hr | hr
    -- the number of modules
    · rw [List.mem_singleton.mp hr]
      exact ⟨le_rfl, by dsimp only; omega⟩
    · obtain ⟨hlo, hhi⟩ := hin r hr
      exact ⟨by omega, by omega⟩

/-- `moduleAddresses` of `initializeKernelBinary`. -/
def moduleAddresses (i : Nat) : Int := if i = 0 then 0x400000 else 0x500000

/-- A kernel of one byte and two modules. -/
theorem loadModules_buildImage_two : ∃ image : List UInt8,
    buildImage 3 [1] [[7, 8], [9]] = some image ∧
      (Loader.loadModules (fun x => image.getD x.toNat 0) 1 moduleAddresses).mem.Holds 0x400000
        [7, 8] ∧
      (Loader.loadModules (fun x => image.getD x.toNat 0) 1 moduleAddresses).mem.Holds 0x500000
        [9] := by
  have hrounds : ∀ f ∈ [1] :: [[7, 8], [(9 : UInt8)]], f.length / packBufferSize + 1 < 3 := by
    decide
  have hnext : ∀ i j f, [[7, 8], [(9 : UInt8)]][i]? = some f → i < j →
      j < [[7, 8], [(9 : UInt8)]].length → moduleAddresses i + f.length ≤ moduleAddresses j := by
    intro i j f hi hij hj
    have h0 : i = 0 := by simp only [List.length_cons, List.length_nil] at hj; omega
    have h1 : j = 1 := by simp only [List.length_cons, List.length_nil] at hj; omega
    subst h0 h1
    cases hi
    decide
  obtain ⟨image, himage, hload⟩ := loadModules_buildImage hrounds (by decide) (by decide) hnext
  obtain rfl : [1, 2, 0, 0, 0, 2, 0, 0, 0, 7, 8, 1, 0, 0, 0, 9] = image :=
    Option.some.inj ((rfl : _ = buildImage 3 [1] [[7, 8], [9]]).trans himage)
  have hclear : ∀ i f, [[7, 8], [(9 : UInt8)]][i]? = some f →
      Clear (0 + [(1 : UInt8)].length) (0 + 16) (moduleAddresses i) f := by
    intro i f _
    right
    unfold moduleAddresses
    split <;> decide
  obtain ⟨hmodules, -⟩ := hload
    (fun x => [1, 2, 0, 0, 0, 2, 0, 0, 0, 7, 8, 1, 0, 0, 0, 9].getD x.toNat 0) 0 (by decide) hclear
  exact ⟨_, himage, hmodules 0 _ rfl, hmodules 1 _ rfl⟩

end TP2Kernel

import KernelProgramming.Ext2.Cp
import KernelProgramming.Ext2.Ln
import KernelProgramming.Ext2.Mkdir
import KernelProgramming.Ext2.Rm

/-!
# Runs of the tools

The four tools that change a volume, one after the other on the same image.
-/

namespace KernelProgramming.Ext2

inductive Command
  | mkdir (path : CString) (now : ℕ)
  | cp (leftover nativePath : CString) (native : Option NativeFile) (destPath : CString) (now : ℕ)
  | ln (symbolic : Bool) (filePath destPath : CString) (now depth : ℕ)
  | rm (recursive : Bool) (path : CString) (now depth : ℕ)

def Command.run (d : Disk) : Command → Except Fault (ℕ × Disk)
  | .mkdir path now => ext2Mkdir d path now
  | .cp leftover nativePath native destPath now => ext2Cp d leftover nativePath native destPath now
  | .ln symbolic filePath destPath now depth => ext2Ln d symbolic filePath destPath now depth
  | .rm recursive path now depth => ext2Rm d recursive path now depth

/-- One command after the other, whatever codes they return. -/
def runAll (d : Disk) (cmds : List Command) : Except Fault Disk :=
  cmds.foldlM (fun d c => do
    let (_, d) ← c.run d
    .ok d) d

end KernelProgramming.Ext2

import ClassSynth.Archive.Writer
import ClassSynth.Body.Document
import ClassSynth.ClassUnit.CodeView
import ClassSynth.Main
import ClassSynth.Proofs.ClassFile.Codec
import ClassSynth.Proofs.ClassUnit.Members
import ClassSynth.Proofs.Emit.Exits
import ClassSynth.Proofs.Execution.Method
import ClassSynth.Proofs.Frame.Shortest
import ClassSynth.Proofs.Instruction.Rewriting
import ClassSynth.Proofs.Patch.Prologue
import ClassSynth.Proofs.Patch.Returns
import ClassSynth.Proofs.Verifier.Frames
import ClassSynth.Proofs.Verifier.Heights
import ClassSynth.Proofs.Binding.Fields
import ClassSynth.Proofs.ClassUnit.Fields
import ClassSynth.Proofs.Generation.Session
import ClassSynth.Proofs.Generation.Actions
import ClassSynth.Proofs.Generation.Survey
import ClassSynth.Proofs.Generation.Coherence
import ClassSynth.Proofs.Generation.Repetition
import ClassSynth.Proofs.Generation.Grounding
import ClassSynth.Proofs.Synthesis.Contract
import ClassSynth.Proofs.Synthesis.Safety
import ClassSynth.Proofs.Binding.Acceptance
import ClassSynth.Proofs.Pool.Transparency
import ClassSynth.Proofs.Template.Printing
import ClassSynth.Proofs.Synthesis.Guards
import ClassSynth.Proofs.ConstantPool.Filling
import ClassSynth.Proofs.Descriptor.RoundTrip
import ClassSynth.Proofs.Binding.Overloads
import ClassSynth.Proofs.Binding.Events
import ClassSynth.Proofs.Binding.Adaptation
import ClassSynth.Proofs.Generation.Constructors
import ClassSynth.Proofs.Generation.Members
import ClassSynth.Proofs.Pool.Views
import ClassSynth.Proofs.ClassFile.Truncation
import ClassSynth.Proofs.Verifier.Wholeness
import ClassSynth.Proofs.Synthesis.Texts
import ClassSynth.Proofs.Verifier.Arrivals

import KLambda.Text.Blank
import KLambda.Text.Glyph
import KLambda.Text.Quoted
import KLambda.Number.Exact
import KLambda.Number.Shortest
import KLambda.Number.Text
import KLambda.Number.Read
import KLambda.Token
import KLambda.Token.Lexer
import KLambda.Form
import KLambda.Form.Reader
import KLambda.Value
import KLambda.Value.Shape
import KLambda.Value.Coerce
import KLambda.Error
import KLambda.Scope
import KLambda.Code
import KLambda.Code.Construct
import KLambda.Code.Compile
import KLambda.Table
import KLambda.Disk
import KLambda.Device
import KLambda.Stream
import KLambda.Primitive
import KLambda.Heap
import KLambda.Heap.Equate
import KLambda.World
import KLambda.Primitive.Call
import KLambda.Machine
import KLambda.Machine.Drive
import KLambda.Machine.Reach
import KLambda.Machine.Release
import KLambda.Engine
import KLambda.Convert
import KLambda.Console.Path
import KLambda.Console
import KLambda.Console.Terminal
import KLambda.Main
import KLambda.Proofs.Run
import KLambda.Proofs.Correspondence
import KLambda.Proofs.Compile
import KLambda.Proofs.HeadPosition
import KLambda.Proofs.Frames
import KLambda.Proofs.Trampoline
import KLambda.Proofs.Scoped
import KLambda.Proofs.Raised
import KLambda.Proofs.Sound
import KLambda.Proofs.SoundWorld
import KLambda.Proofs.Faultless
import KLambda.Proofs.Alike
import KLambda.Proofs.Reach
import KLambda.Proofs.Lossless
import KLambda.Proofs.Unbuffered
import KLambda.Proofs.Release
import KLambda.Proofs.Driving
import KLambda.Proofs.Natural
import KLambda.Proofs.Grounded
import KLambda.Proofs.Currying
import KLambda.Proofs.Above
import KLambda.Proofs.Reading
import KLambda.Proofs.Lexical
import KLambda.Proofs.Positions
import KLambda.Proofs.Equivalent
import KLambda.Proofs.Flattening
import KLambda.Proofs.Lexing
import KLambda.Proofs.Evolution
import KLambda.Proofs.Sequencing
import KLambda.Proofs.Builtin
import KLambda.Proofs.Characters
import KLambda.Proofs.Clauses
import KLambda.Proofs.CompileTime
import KLambda.Proofs.Conversions
import KLambda.Proofs.Display
import KLambda.Proofs.FaultPlaces
import KLambda.Proofs.Finite
import KLambda.Proofs.Keywords
import KLambda.Proofs.Leaves
import KLambda.Proofs.Ports
import KLambda.Proofs.Rereading
import KLambda.Proofs.StaticErrors

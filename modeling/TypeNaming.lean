import TypeNaming.Main
import TypeNaming.NameTree.Shorthand
import TypeNaming.Proofs.Grammar.Exact
import TypeNaming.Proofs.Identity.Parsed
import TypeNaming.Proofs.Identity.Register
import TypeNaming.Proofs.Identity.Reuse
import TypeNaming.Proofs.Grammar.Labels
import TypeNaming.Proofs.Grammar.Respelling
import TypeNaming.Proofs.Grammar.Shift
import TypeNaming.Proofs.Grammar.Locality
import TypeNaming.Proofs.Grammar.Guard
import TypeNaming.Proofs.Identity.Hint
import TypeNaming.Proofs.Identity.Imports
import TypeNaming.Proofs.Identity.Readable
import TypeNaming.Proofs.Members.Identifiers
import TypeNaming.Proofs.Identity.Chain
import TypeNaming.Proofs.Members.Codec
import TypeNaming.Proofs.Members.Warnings
import TypeNaming.Proofs.RoundTrip.NormalForm
import TypeNaming.Proofs.RoundTrip.Shorthand
import TypeNaming.Proofs.Facts.Losses
import TypeNaming.Proofs.Identity.Wrapped
import TypeNaming.Proofs.Grammar.Mistake
import TypeNaming.Proofs.Drawing.Places
import TypeNaming.Proofs.CommandLine.Members

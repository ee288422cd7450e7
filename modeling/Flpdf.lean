import Flpdf.Bits.RoundTrip
import Flpdf.Content.InlineImages
import Flpdf.Content.Meaning
import Flpdf.Encryption.Aes256
import Flpdf.Encryption.ObjectKeys
import Flpdf.Encryption.Passwords
import Flpdf.Encryption.Reencoding
import Flpdf.Job.NumrangeCorrect
import Flpdf.Json.RoundTrip
import Flpdf.Linearization.ContainerOrder
import Flpdf.Linearization.HintRoundTrip
import Flpdf.Linearization.SharedHeader
import Flpdf.NNTree.Invariant
import Flpdf.Object.Accepted
import Flpdf.Object.ResourceNames
import Flpdf.ObjectJson.Names
import Flpdf.ObjectStreams.Eligibility
import Flpdf.Optimization.BuildMaps
import Flpdf.Optimization.InheritedAttrsPush
import Flpdf.Outlines.Construction
import Flpdf.PageLabels.Ranges
import Flpdf.Pages.SpliceCorrect
import Flpdf.Parser.GrammarRuns
import Flpdf.Pipeline.Base64Decoder
import Flpdf.QdfFix.Total
import Flpdf.Resolver.ResolutionTotal
import Flpdf.Streams.Decoding
import Flpdf.Streams.Extent
import Flpdf.StructTree.Updated
import Flpdf.Writer.LiveHolders
import Flpdf.Writer.RefMapsAgree
import Flpdf.Xref.Precedence
import Flpdf.Xref.ReconstructionCorrect

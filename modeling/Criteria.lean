import Criteria.Scripting
import Criteria.Proofs.Engine.Sources
import Criteria.Proofs.Engine.Verdicts
import Criteria.Proofs.Engine.Validity
import Criteria.Proofs.Engine.Lines
import Criteria.Proofs.Engine.Twins
import Criteria.Proofs.Engine.Documents
import Criteria.Proofs.Engine.Sessions
import Criteria.Proofs.Sharing.Transparency
import Criteria.Proofs.Sharing.Exactness
import Criteria.Proofs.Minimality
import Criteria.Proofs.Reading.Faults
import Criteria.Proofs.Scanning.Lossless
import Criteria.Proofs.Scanning.Composition
import Criteria.Proofs.Joining
import Criteria.Proofs.Layout
import Criteria.Proofs.Evaluation.Dependence
import Criteria.Proofs.Evaluation.Orderings
import Criteria.Proofs.Evaluation.Strings
import Criteria.Proofs.Chaining
import Criteria.Proofs.Defects
import Criteria.Proofs.Naming
import Criteria.Proofs.Scanning.Literals
import Criteria.Proofs.Records
import Criteria.Proofs.Engine.Merging
